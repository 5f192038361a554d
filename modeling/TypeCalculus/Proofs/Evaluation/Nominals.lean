import TypeCalculus.Proofs.Evaluation.Laziness
import TypeCalculus.Proofs.Evaluation.Safety

/-!
Evaluation makes up no nominal types. Whether or not it succeeds, it adds only unions and templatised
types to the store, and all nominal types in these and in its result are in the types that it starts
from.
-/

namespace TypeCalculus

namespace Tree

/-- The nominal type of that name is the tree or occurs somewhere inside. -/
inductive Names (name : Name) : Tree → Prop where
  | named : Names name (.named name)
  | member {m members} : m ∈ members → Names name m → Names name (.union members)
  | base {base args} : Names name base → Names name (.applied base args)
  | arg {a base args} : a ∈ args → Names name a → Names name (.applied base args)

theorem names_union_iff {name : Name} {members : List Tree} :
    Names name (.union members) ↔ ∃ m ∈ members, Names name m := by
  constructor
  · rintro (_ | ⟨hm, h⟩)
    exact ⟨_, hm, h⟩
  · rintro ⟨m, hm, h⟩
    exact .member hm h

theorem names_applied_iff {name : Name} {base : Tree} {args : List Tree} :
    Names name (.applied base args) ↔ Names name base ∨ ∃ a ∈ args, Names name a := by
  constructor
  · rintro (_ | _ | h | ⟨ha, h⟩)
    · exact .inl h
    · exact .inr ⟨_, ha, h⟩
  · rintro (h | ⟨a, ha, h⟩)
    · exact .base h
    · exact .arg ha h

theorem hereditary_names (allowed : Name → Prop) :
    Hereditary fun T => ∀ name, T.Names name → allowed name where
  all := nofun
  empty := nofun
  union_iff := by
    intro members
    simp only [names_union_iff]
    exact ⟨fun h m hm name hname => h name ⟨m, hm, hname⟩, fun h name ⟨m, hm, hname⟩ => h m hm name hname⟩
  applied_iff := by
    intro base args
    simp only [names_applied_iff]
    constructor
    · intro h
      exact ⟨fun name hname => h name (.inl hname), fun a ha name hname => h name (.inr ⟨a, ha, hname⟩)⟩
    · rintro ⟨hbase, hargs⟩ name (hname | ⟨a, ha, hname⟩)
      · exact hbase name hname
      · exact hargs a ha name hname

end Tree

namespace Store

variable {P : Tree → Prop} {s s' s'' : Store} {t : TypeId}

/-- `s'` holds what `s` holds, and beyond that only unions and templatised types with the property. -/
structure Widens (P : Tree → Prop) (s s' : Store) : Prop where
  le : s ≤ s'
  wellFormed : s'.WellFormed
  added : ∀ t : TypeId, s.size ≤ t.index → t.index < s'.size →
    (s'.kind t = .ok .union ∨ s'.kind t = .ok .applied) ∧ s'.HasIn P t

theorem Widens.refl (h : s.WellFormed) : s.Widens P s :=
  ⟨le_refl s, h, fun _ hlow hhigh => absurd hhigh (Nat.not_lt.2 hlow)⟩

theorem Widens.trans (h : s.Widens P s') (h' : s'.Widens P s'') : s.Widens P s'' := by
  refine ⟨h.le.trans h'.le, h'.wellFormed, fun t hlow hhigh => ?_⟩
  by_cases hmiddle : t.index < s'.size
  · obtain ⟨hkind, hP⟩ := h.added t hlow hmiddle
    exact ⟨hkind.imp (Lasting.kind t h'.le) (Lasting.kind t h'.le), hP.mono h'.le⟩
  · exact h'.added t (Nat.not_lt.1 hmiddle) hhigh

/-- How a step changes the store if at most its result is new, and then is a compound type. -/
def ResultMore (s : Store) : EStateM.Result Fault Store TypeId → Prop
  | .ok t s' => s' = s ∨ ∃ e : Entry, (e.shape.kind = .union ∨ e.shape.kind = .applied) ∧
      t = ⟨s.size⟩ ∧ s' = s.push e
  | .error _ s' => s' = s

theorem intern_resultMore {shape : Shape} (hkind : shape.kind = .union ∨ shape.kind = .applied)
    (s : Store) : s.ResultMore (Store.intern shape s) := by
  rcases intern_cases shape s with ⟨t, -, hr⟩ | ⟨traits, -, -, hr⟩ | ⟨f, -, hr⟩ | hr <;> rw [hr]
  · exact .inl rfl
  · exact .inr ⟨⟨shape, traits⟩, hkind, rfl, rfl⟩
  · exact rfl
  · exact rfl

theorem union_resultMore (ts : List TypeId) (s : Store) : s.ResultMore (Store.union ts s) := by
  rw [union_eq]
  split
  · exact .inl rfl
  · split
    · exact .inl rfl
    · split
      · exact .inl rfl
      · exact .inl rfl
      · exact intern_resultMore (.inl rfl) s
  · exact rfl

theorem applied_resultMore (base : TypeId) (args : List TypeId) (s : Store) :
    s.ResultMore (Store.applied base args s) := by
  rw [applied_eq]
  split
  · exact .inl rfl
  · split
    · split
      · exact intern_resultMore (.inr rfl) s
      · exact .inl rfl
    · exact rfl

theorem ResultMore.widens {r : EStateM.Result Fault Store TypeId} {T : Tree} (h : s.ResultMore r)
    (hle : s ≤ finalState r) (hwf : (finalState r).WellFormed) (hT : Makes T r) (hP : P T) :
    s.Widens P (finalState r) := by
  refine ⟨hle, hwf, fun t hlow hhigh => ?_⟩
  cases r with
  | error f s' =>
    obtain rfl : s' = s := h
    exact absurd hhigh (Nat.not_lt.2 hlow)
  | ok u s' =>
    rcases h with rfl | ⟨e, hkind, rfl, rfl⟩
    · exact absurd hhigh (Nat.not_lt.2 hlow)
    · have ht : t = ⟨s.size⟩ := by
        have hsize : t.index < s.size + 1 := by simpa [finalState, size, push] using hhigh
        exact TypeId.ext (Nat.le_antisymm (Nat.le_of_lt_succ hsize) hlow)
      subst ht
      have hshape : (s.push e).shape ⟨s.size⟩ = .ok e.shape := shape_push_iff.2 (.inr ⟨rfl, rfl⟩)
      have hk : (s.push e).kind ⟨s.size⟩ = .ok e.shape.kind := bind_eq_ok_iff.2 ⟨_, hshape, rfl⟩
      refine ⟨?_, T, hT, hP⟩
      simpa [finalState, hk] using hkind

end Store

namespace Eval

variable {α β : Type} {P : Tree → Prop} {Q : Store → α → Prop} {R : Store → β → Prop} {p : Progress}

/-- From `p` on, however the step ends, it has added only unions and templatised types with the
property `P` to the store; and its result, if there is one, has `Q`. -/
def Draws (P : Tree → Prop) (Q : Store → α → Prop) (p : Progress) (act : Eval α) : Prop :=
  p.store.Widens P (finalState (act p)).store ∧ ∀ a p', act p = .ok a p' → Q p'.store a

namespace Draws

theorem pure {a : α} (h : p.store.WellFormed) (ha : Q p.store a) : Draws P Q p (Pure.pure a) := by
  refine ⟨.refl h, fun b p' hb => ?_⟩
  cases hb
  exact ha

theorem throw (h : p.store.WellFormed) (e : Abort) :
    Draws P Q p (MonadExcept.throw e : Eval α) := ⟨.refl h, nofun⟩

theorem bind {act : Eval α} {next : α → Eval β} (h : Draws P Q p act)
    (hn : ∀ a p', p.store ≤ p'.store → p'.store.WellFormed → Q p'.store a → Draws P R p' (next a)) :
    Draws P R p (act >>= next) := by
  obtain ⟨hwidens, hresult⟩ := h
  unfold Draws
  rw [bind_apply]
  cases hact : act p with
  | error e p₁ =>
    rw [hact] at hwidens
    exact ⟨hwidens, nofun⟩
  | ok a p₁ =>
    rw [hact] at hwidens
    have hnext := hn a p₁ hwidens.le hwidens.wellFormed (hresult a p₁ hact)
    exact ⟨hwidens.trans hnext.1, hnext.2⟩

theorem imp {Q' : Store → α → Prop} {act : Eval α} (h : Draws P Q p act)
    (hQ : ∀ s a, Q s a → Q' s a) : Draws P Q' p act :=
  ⟨h.1, fun a p' hact => hQ _ _ (h.2 a p' hact)⟩

theorem ofExcept (h : p.store.WellFormed) (r : Except Abort α) :
    Draws P (fun _ a => r = .ok a) p (Eval.ofExcept r) := by
  cases r with
  | ok a => exact pure h rfl
  | error e => exact throw h e

theorem ask (h : p.store.WellFormed) (question : Store → Except Fault α) :
    Draws P (fun s a => question s = .ok a) p (Eval.ask question) := by
  unfold Draws
  rw [ask_store]
  refine ⟨.refl h, fun a p' ha => ?_⟩
  obtain ⟨hanswer, rfl⟩ := ask_eq_ok_iff.1 ha
  exact hanswer

theorem build {make : StoreM TypeId} {T : Tree} (hm : make.Settles)
    (hmore : p.store.ResultMore (make p.store)) (hwf : (finalState (make p.store)).WellFormed)
    (hT : Store.Makes T (make p.store)) (hP : P T) :
    Draws P (fun s t => s.HasIn P t) p (Eval.build make) := by
  unfold Draws
  rw [build_store]
  refine ⟨hmore.widens (hm.grows p.store) hwf hT hP, fun t p' ht => ?_⟩
  obtain ⟨s, hmade, rfl⟩ := build_eq_ok_iff.1 ht
  rw [hmade] at hT
  exact ⟨T, hT, hP⟩

theorem union (hP : Tree.Hereditary P) (h : p.store.WellFormed) {ts : List TypeId}
    (hts : ∀ t ∈ ts, p.store.HasIn P t) :
    Draws P (fun s t => s.HasIn P t) p (Eval.build (Store.union ts)) := by
  obtain ⟨Ts, hTs, hPTs⟩ := Store.exists_trees_in hts
  exact build (.union ts) (Store.union_resultMore ts _) (h.union ts) (h.makes_union hTs) (hP.join hPTs)

theorem applied (hP : Tree.Hereditary P) (h : p.store.WellFormed) {base : TypeId} {args : List TypeId}
    (hb : p.store.HasIn P base) (ha : ∀ arg ∈ args, p.store.HasIn P arg) :
    Draws P (fun s t => s.HasIn P t) p (Eval.build (Store.applied base args)) := by
  obtain ⟨B, hB, hPB⟩ := hb
  obtain ⟨As, hAs, hPAs⟩ := Store.exists_trees_in ha
  exact build (.applied base args) (Store.applied_resultMore base args _) (h.applied base args)
    (h.makes_applied hB hAs) (hP.apply hPB hPAs)

theorem resolved (h : p.store.WellFormed) (hu : P .unknown) {found : Option TypeId}
    (hf : ∀ t, found = some t → p.store.HasIn P t) (miss : Miss) :
    Draws P (fun s t => s.HasIn P t) p (Eval.resolved found miss) := by
  cases found with
  | some t => exact pure h (hf t rfl)
  | none =>
    have hnote : Draws P (fun _ _ => True) p (Eval.note miss) := by
      unfold Draws
      rw [note_store]
      exact ⟨.refl h, fun _ _ _ => trivial⟩
    exact hnote.bind fun _ p' _ hwf _ => pure hwf (hwf.hasIn_unknown hu)

theorem mapM {γ : Type} {act : γ → Eval α} (hQ : ∀ {s s' a}, s ≤ s' → Q s a → Q s' a) {cs : List γ}
    (h : p.store.WellFormed)
    (hc : ∀ c ∈ cs, ∀ p', p.store ≤ p'.store → p'.store.WellFormed → Draws P Q p' (act c)) :
    Draws P (fun s as => ∀ a ∈ as, Q s a) p (cs.mapM act) := by
  induction cs generalizing p with
  | nil => exact pure h (List.forall_mem_nil _)
  | cons c cs ih =>
    rw [List.mapM_cons]
    refine (hc c List.mem_cons_self p (le_refl _) h).bind fun a p₁ hle₁ hwf₁ ha => ?_
    have hrest := ih hwf₁ fun c' hc' p' hle => hc c' (List.mem_cons_of_mem c hc') p' (hle₁.trans hle)
    refine hrest.bind fun as p₂ hle₂ hwf₂ has => ?_
    exact pure hwf₂ (List.forall_mem_cons.2 ⟨hQ hle₂ ha, has⟩)

end Draws

section Rules

variable {typeOf : Scope → NodeId → Eval TypeId} {holds : Scope → NodeId → Eval Bool}
  {declared? : Name → Option TypeId} {scope : Scope}

/-- The evaluation of nodes draws on types with the property, as long as the names in scope and the
declared names stand for such types. -/
def Drawing (P : Tree → Prop) (Q : Store → α → Prop) (declared? : Name → Option TypeId)
    (act : Scope → NodeId → Eval α) : Prop :=
  ∀ p scope id, p.store.WellFormed → p.store.HoldsIn P declared? → p.store.HoldsIn P scope.lookup? →
    Draws P Q p (act scope id)

theorem Drawing.operands (ht : Drawing P (fun s t => s.HasIn P t) declared? typeOf)
    (h : p.store.WellFormed) (hd : p.store.HoldsIn P declared?) (hs : p.store.HoldsIn P scope.lookup?)
    (ids : List NodeId) :
    Draws P (fun s ts => ∀ t ∈ ts, s.HasIn P t) p (ids.mapM (typeOf scope)) :=
  .mapM (fun hle h => h.mono hle) h fun id _ p' hle hwf => ht p' scope id hwf (hd.mono hle) (hs.mono hle)

theorem Drawing.operation (hP : Tree.Hereditary P) (hu : P .unknown)
    (ht : Drawing P (fun s t => s.HasIn P t) declared? typeOf)
    (hh : Drawing P (fun _ _ => True) declared? holds) (h : p.store.WellFormed)
    (hd : p.store.HoldsIn P declared?) (hs : p.store.HoldsIn P scope.lookup?) (op : Operation) :
    Draws P (fun s t => s.HasIn P t) p (op.eval typeOf declared? holds scope) := by
  cases op with
  | var name => exact .resolved h hu (hs name) _
  | empty => exact .pure h ⟨_, h.reads_empty, hP.empty⟩
  | all => exact .pure h ⟨_, h.reads_all, hP.all⟩
  | unknown => exact .pure h (h.hasIn_unknown hu)
  | named name args =>
    refine (ht.operands h hd hs args).bind fun as p₁ hle₁ hwf₁ has => ?_
    refine (Draws.resolved hwf₁ hu (hd.mono hle₁ name) _).bind fun b p₂ hle₂ hwf₂ hb => ?_
    split
    · exact .pure hwf₂ hb
    · exact .applied hP hwf₂ hb fun a ha => (has a ha).mono hle₂
  | union operands =>
    refine (ht.operands h hd hs operands).bind fun ts p₁ _ hwf₁ hts => ?_
    exact .union hP hwf₁ hts
  | cond test yes no =>
    refine (hh p scope test h hd hs).bind fun b p₁ hle₁ hwf₁ _ => ?_
    have hbranch (id : NodeId) : Draws P (fun s t => s.HasIn P t) p₁ (typeOf scope id) :=
      ht p₁ scope id hwf₁ (hd.mono hle₁) (hs.mono hle₁)
    cases b with
    | true => exact hbranch yes
    | false => exact hbranch no
  | mapUnion source param body =>
    refine (ht p scope source h hd hs).bind fun t p₁ hle₁ hwf₁ ht₁ => ?_
    obtain ⟨ms, hms, hmem⟩ := hwf₁.exists_members_in hP ht₁
    refine (Draws.ask hwf₁ (·.members t)).bind fun ms' p₂ hle₂ hwf₂ hms' => ?_
    obtain rfl : ms = ms' := Except.ok.inj ((Store.Lasting.members t hle₂ hms).symm.trans hms')
    have hle := hle₁.trans hle₂
    have hbodies : Draws P (fun s ts => ∀ t ∈ ts, s.HasIn P t) p₂
        (ms.mapM fun m => typeOf (scope.extend [(param, m)]) body) := by
      refine .mapM (fun hle h => h.mono hle) hwf₂ fun m hm p₃ hle₃ hwf₃ => ?_
      have hscope := (hs.mono (hle.trans hle₃)).extend param ((hmem m hm).mono (hle₂.trans hle₃))
      exact ht p₃ _ body hwf₃ (hd.mono (hle.trans hle₃)) hscope
    exact hbodies.bind fun ts p₃ _ hwf₃ hts => .union hP hwf₃ hts
  | rawTypeOf subject =>
    refine (ht p scope subject h hd hs).bind fun t p₁ _ hwf₁ ht₁ => ?_
    obtain ⟨b, hb, hbase⟩ := hwf₁.exists_base?_in hP ht₁
    refine (Draws.ask hwf₁ (·.base? t)).bind fun b' p₂ hle₂ hwf₂ hb' => .pure hwf₂ ?_
    obtain rfl : b = b' := Except.ok.inj ((Store.Lasting.base? t hle₂ hb).symm.trans hb')
    cases b with
    | none => exact hwf₂.hasIn_unknown hu
    | some base => exact (hbase base rfl).mono hle₂
  | templateTypeOf subject place =>
    refine (ht p scope subject h hd hs).bind fun t p₁ _ hwf₁ ht₁ => ?_
    obtain ⟨args, hargs, hmem⟩ := hwf₁.exists_args_in hP ht₁
    refine (Draws.ask hwf₁ (·.args t)).bind fun args' p₂ hle₂ hwf₂ hargs' => .pure hwf₂ ?_
    obtain rfl : args = args' := Except.ok.inj ((Store.Lasting.args t hle₂ hargs).symm.trans hargs')
    cases harg : args[place]? with
    | none => exact hwf₂.hasIn_unknown hu
    | some arg => exact (hmem arg (List.mem_of_getElem? harg)).mono hle₂

theorem Drawing.condition (ht : Drawing P (fun s t => s.HasIn P t) declared? typeOf)
    (h : p.store.WellFormed) (hd : p.store.HoldsIn P declared?) (hs : p.store.HoldsIn P scope.lookup?)
    (condition : Condition) : Draws P (fun _ _ => True) p (condition.eval typeOf scope) := by
  rw [condition.eval_eq]
  refine (ht.operands h hd hs condition.parts).bind fun ts p₁ _ hwf₁ _ => ?_
  -- The answer itself adds nothing to the store.
  unfold Condition.conclude
  split
  · exact .pure hwf₁ trivial
  · exact (Draws.ask hwf₁ _).imp fun _ _ _ => trivial
  · exact (Draws.ask hwf₁ _).bind fun _ _ _ hwf₂ _ => .pure hwf₂ trivial
  · exact .pure hwf₁ trivial
  · exact .pure hwf₁ trivial

end Rules

end Eval

namespace Context

variable {cx : Context} {scope : Scope} {root : NodeId} {s : Store} {P : Tree → Prop}

theorem typeAt_and_holdsAt_draw (hP : Tree.Hereditary P) (hu : P .unknown) (room : Nat) :
    Eval.Drawing P (fun s t => s.HasIn P t) cx.declared? (cx.typeAt room) ∧
      Eval.Drawing P (fun _ _ => True) cx.declared? (cx.holdsAt room) := by
  induction room with
  | zero => exact ⟨fun _ _ _ h _ _ => .throw h _, fun _ _ _ h _ _ => .throw h _⟩
  | succ room ih =>
    obtain ⟨iht, ihh⟩ := ih
    constructor
    · intro p scope id h hd hs
      refine (Eval.Draws.ofExcept h _).bind fun op p₁ hle hwf₁ _ => ?_
      exact iht.operation hP hu ihh hwf₁ (hd.mono hle) (hs.mono hle) op
    · intro p scope id h hd hs
      refine (Eval.Draws.ofExcept h _).bind fun condition p₁ hle hwf₁ _ => ?_
      exact iht.condition hwf₁ (hd.mono hle) (hs.mono hle) condition

/-- What evaluation adds to the store are unions and templatised types that have every hereditary
property that the types have from which it starts, and its result has these properties too. -/
theorem evaluate_draws (hP : Tree.Hereditary P) (hu : P .unknown) (h : s.WellFormed)
    (hd : s.HoldsIn P cx.declared?) (hs : s.HoldsIn P scope.lookup?) :
    s.Widens P (cx.evaluate scope root s).2 ∧
      ∀ e, (cx.evaluate scope root s).1 = .ok e → (cx.evaluate scope root s).2.HasIn P e.type := by
  obtain ⟨hwidens, hresult⟩ :=
    (typeAt_and_holdsAt_draw hP hu (cx.limit.room 0)).1 ⟨s, []⟩ scope root h hd hs
  rw [← cx.evaluate_snd scope root s] at hwidens
  refine ⟨hwidens, fun e he => ?_⟩
  unfold evaluate at he ⊢
  cases hr : cx.typeAt (cx.limit.room 0) scope root ⟨s, []⟩ with
  | ok t p =>
    rw [hr] at he
    cases he
    exact hresult t p hr
  | error e p =>
    rw [hr] at he
    cases he

/-- Whether or not it succeeds, an evaluation adds only unions and templatised types to the store, and
every nominal type in these or in its result is in a type that a name in scope or a declared name
stands for. -/
theorem evaluate_nominals (h : s.Reachable) (hd : s.Holds cx.declared?) (hs : s.Holds scope.lookup?) :
    (∀ t : TypeId, s.size ≤ t.index → t.index < (cx.evaluate scope root s).2.size →
      (cx.evaluate scope root s).2.kind t = .ok .union ∨
        (cx.evaluate scope root s).2.kind t = .ok .applied) ∧
    ∀ t : TypeId, (s.size ≤ t.index ∧ t.index < (cx.evaluate scope root s).2.size ∨
        ∃ e, (cx.evaluate scope root s).1 = .ok e ∧ t = e.type) →
      ∃ T, (cx.evaluate scope root s).2.Reads t T ∧ ∀ name, T.Names name →
        ∃ x u U, (scope.lookup? x = some u ∨ cx.declared? x = some u) ∧ s.Reads u U ∧
          U.Names name := by
  have hwf := h.wellFormed
  let P (T : Tree) : Prop := ∀ name, T.Names name →
    ∃ x u U, (scope.lookup? x = some u ∨ cx.declared? x = some u) ∧ s.Reads u U ∧ U.Names name
  have hP : Tree.Hereditary P := Tree.hereditary_names _
  have hdP : s.HoldsIn P cx.declared? := by
    intro x u hx
    obtain ⟨U, hU⟩ := hwf.exists_reads u (hd x u hx)
    exact ⟨U, hU, fun name hname => ⟨x, u, U, .inr hx, hU, hname⟩⟩
  have hsP : s.HoldsIn P scope.lookup? := by
    intro x u hx
    obtain ⟨U, hU⟩ := hwf.exists_reads u (hs x u hx)
    exact ⟨U, hU, fun name hname => ⟨x, u, U, .inl hx, hU, hname⟩⟩
  obtain ⟨hwidens, hresult⟩ := @evaluate_draws cx scope root s P hP nofun hwf hdP hsP
  refine ⟨fun t hlow hhigh => (hwidens.added t hlow hhigh).1, ?_⟩
  rintro t (⟨hlow, hhigh⟩ | ⟨e, he, rfl⟩)
  · exact (hwidens.added t hlow hhigh).2
  · exact hresult e he

/-- `union(union(x, y), 'A')`, where a string stands in the place of a type. -/
def foundering : Context where
  names := .new .byScalars
  arena := ⟨#[.var ⟨0, 1⟩, .var ⟨0, 2⟩, .call ⟨9, 0⟩ ⟨0, 2⟩, .str ⟨1, 0⟩, .call ⟨9, 0⟩ ⟨2, 2⟩],
    #[⟨0⟩, ⟨1⟩, ⟨2⟩, ⟨3⟩]⟩
  declared? _ := none
  limit := ⟨3⟩

/-- The inner union has been made when the evaluation fails. -/
theorem foundering_evaluate_nominals :
    let outcome := foundering.evaluate (.sample ⟨3⟩ ⟨4⟩) ⟨4⟩ (.sample ⟨1, 0⟩ ⟨2, 0⟩)
    (∃ e, outcome.1 = .error e) ∧
      (outcome.2.kind ⟨5⟩ = .ok .union ∨ outcome.2.kind ⟨5⟩ = .ok .applied) ∧
      ∃ T, outcome.2.Reads ⟨5⟩ T ∧ ∀ name, T.Names name →
        ∃ x u U, ((Scope.sample ⟨3⟩ ⟨4⟩).lookup? x = some u ∨ foundering.declared? x = some u) ∧
          (Store.sample ⟨1, 0⟩ ⟨2, 0⟩).Reads u U ∧ U.Names name := by
  have hscope : (Store.sample ⟨1, 0⟩ ⟨2, 0⟩).Holds (Scope.sample ⟨3⟩ ⟨4⟩).lookup? :=
    Store.holds_ofBindings (by decide)
  obtain ⟨hkinds, hnames⟩ := @evaluate_nominals foundering (.sample ⟨3⟩ ⟨4⟩) ⟨4⟩ (.sample ⟨1, 0⟩ ⟨2, 0⟩)
    (Store.sample_reachable _ _) nofun hscope
  exact ⟨⟨_, rfl⟩, hkinds ⟨5⟩ (by decide) (by decide), hnames ⟨5⟩ (.inl ⟨by decide, by decide⟩)⟩

end Context

end TypeCalculus
