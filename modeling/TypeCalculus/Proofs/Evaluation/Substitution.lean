import TypeCalculus.Proofs.Evaluation.Coincidence
import TypeCalculus.Proofs.Evaluation.Renaming
import TypeCalculus.Proofs.Store.WellFormed

/-!
Binding a variable to the type of an expression is as good as writing the expression in its place.
What the one evaluation has made the other finds made already, each time it comes to the expression;
only the levels that it takes to evaluate the expression again may be missing.
-/

namespace TypeCalculus

namespace Eval

variable {α β : Type}

/-- In the store `s` the step has the given outcome and adds nothing, unless it runs out of levels,
and then it adds nothing either. -/
def Redoes (act : Eval α) (s : Store) (outcome : Except Abort α) : Prop :=
  ∀ misses, ∃ misses', act ⟨s, misses⟩ = Eval.ofExcept outcome ⟨s, misses'⟩ ∨
    ∃ max, act ⟨s, misses⟩ = .error (.error (.depthExceeded max)) ⟨s, misses'⟩

namespace Redoes

variable {act : Eval α} {next : α → Eval β} {s : Store}

theorem exhausted (cx : Context) (outcome : Except Abort α) : Redoes cx.exhausted s outcome :=
  fun misses => ⟨misses, .inr ⟨cx.limit.max, rfl⟩⟩

theorem bind {a : α} {outcome : Except Abort β} (h : act.Redoes s (.ok a))
    (hn : (next a).Redoes s outcome) : (act >>= next).Redoes s outcome := by
  intro misses
  obtain ⟨misses₁, hok | ⟨max, hcut⟩⟩ := h misses
  · rw [bind_apply, hok]
    exact hn misses₁
  · rw [bind_apply, hcut]
    exact ⟨misses₁, .inr ⟨max, rfl⟩⟩

theorem bind_error {e : Abort} (h : act.Redoes s (.error e)) : (act >>= next).Redoes s (.error e) := by
  intro misses
  obtain ⟨misses₁, herror | ⟨max, hcut⟩⟩ := h misses
  · rw [bind_apply, herror]
    exact ⟨misses₁, .inl rfl⟩
  · rw [bind_apply, hcut]
    exact ⟨misses₁, .inr ⟨max, rfl⟩⟩

end Redoes

/-- From `base` on, once `act'` has been taken, `act` redoes it: a result in every larger store, an
error in the store that it left. -/
structure Recalls (base : Store) (act act' : Eval α) : Prop where
  grows : ∀ p, p.store ≤ (finalState (act' p)).store
  again : ∀ {p a p' s}, base ≤ p.store → act' p = .ok a p' → p'.store ≤ s → act.Redoes s (.ok a)
  fails : ∀ {p e p'}, base ≤ p.store → act' p = .error e p' → act.Redoes p'.store (.error e)

namespace Recalls

variable {base : Store}

theorem pure (a : α) : Recalls base (Pure.pure a) (Pure.pure a) where
  grows p := le_refl p.store
  again _ h _ := by
    cases h
    exact fun misses => ⟨misses, .inl rfl⟩
  fails _ h := by cases h

theorem throw (e : Abort) : Recalls base (MonadExcept.throw e : Eval α) (MonadExcept.throw e) where
  grows p := le_refl p.store
  again _ h := by cases h
  fails _ h := by
    cases h
    exact fun misses => ⟨misses, .inl rfl⟩

theorem exhausted {act' : Eval α} (cx : Context) (h : act'.Settles) : Recalls base cx.exhausted act' where
  grows := h.grows
  again _ _ _ := .exhausted cx _
  fails _ _ := .exhausted cx _

theorem bind {act act' : Eval α} {next next' : α → Eval β} (h : Recalls base act act')
    (hn : ∀ a, Recalls base (next a) (next' a)) : Recalls base (act >>= next) (act' >>= next') where
  grows p := (h.grows p).trans (le_finalState_bind (fun a => (hn a).grows) p)
  again {p b p' s} hbase hb hle := by
    obtain ⟨a, p₁, hact, hnext⟩ := bind_apply_eq_ok_iff.1 hb
    have hle₁ : p.store ≤ p₁.store := by
      have hgrows := h.grows p
      rwa [hact] at hgrows
    have hle₂ : p₁.store ≤ p'.store := by
      have hgrows := (hn a).grows p₁
      rwa [hnext] at hgrows
    have hfirst := h.again hbase hact (hle₂.trans hle)
    have hsecond := (hn a).again (hbase.trans hle₁) hnext hle
    exact hfirst.bind hsecond
  fails {p e p'} hbase hb := by
    rcases bind_apply_eq_error_iff.1 hb with hact | ⟨a, p₁, hact, hnext⟩
    · exact (h.fails hbase hact).bind_error
    · have hle₁ : p.store ≤ p₁.store := by
        have hgrows := h.grows p
        rwa [hact] at hgrows
      have hle₂ : p₁.store ≤ p'.store := by
        have hgrows := (hn a).grows p₁
        rwa [hnext] at hgrows
      have hfirst := h.again hbase hact hle₂
      have hsecond := (hn a).fails (hbase.trans hle₁) hnext
      exact hfirst.bind hsecond

theorem note (miss : Miss) : Recalls base (Eval.note miss) (Eval.note miss) where
  grows := (Settles.note miss).grows
  again {p _ p' s} _ _ _ := by
    intro misses
    by_cases hmem : miss ∈ misses
    · exact ⟨misses, .inl (note_of_mem hmem)⟩
    · exact ⟨misses ++ [miss], .inl (note_of_not_mem hmem)⟩
  fails _ h := by cases h

theorem ask {question : Store → Except Fault α} (hq : Store.Lasting question) :
    Recalls base (Eval.ask question) (Eval.ask question) where
  grows := (Settles.ask hq).grows
  again {p a p' s} _ h hle := by
    obtain ⟨ha, rfl⟩ := ask_eq_ok_iff.1 h
    exact fun misses => ⟨misses, .inl (ask_eq_ok_iff.2 ⟨hq hle ha, rfl⟩)⟩
  fails {p e p'} _ h := by
    intro misses
    refine ⟨misses, .inl ?_⟩
    unfold Eval.ask at h ⊢
    cases hq : question p.store with
    | ok a =>
      rw [hq] at h
      cases h
    | error f =>
      rw [hq] at h
      cases h
      dsimp only
      rw [hq]
      rfl

/-- A type that cannot be made leaves nothing behind, so it cannot be made a second time. -/
theorem build (former : Store.Former) :
    Recalls base (Eval.build former.make) (Eval.build former.make) where
  grows := (Settles.build former.settles).grows
  again {p t p' s} _ h hle := by
    obtain ⟨s', ht, rfl⟩ := build_eq_ok_iff.1 h
    exact fun misses => ⟨misses, .inl (build_eq_ok_iff.2 ⟨s, former.settles.again ht hle, rfl⟩)⟩
  fails {p e p'} _ h := by
    intro misses
    refine ⟨misses, .inl ?_⟩
    have hsame := p.store.make_oneEntryMore former
    unfold Eval.build at h ⊢
    cases hmake : former.make p.store with
    | ok t s' =>
      rw [hmake] at h
      cases h
    | error f s' =>
      rw [hmake] at h hsame
      cases hsame
      cases h
      dsimp only
      rw [hmake]
      rfl

theorem lockstep (base : Store) : Lockstep fun _ act act' => Recalls base act act' where
  pure := pure
  throw e _ := throw e
  bind := bind
  note := note
  ask := ask
  union ts := build (.union ts)
  applied b args := build (.applied b args)

end Recalls

end Eval

/-- Two variables that correspond, where the second is not the one that is replaced. -/
def Kept (x : Name) (ps : List (Name × Name)) (y y' : Name) : Prop :=
  Corresponds ps y y' ∧ (y' = x → x ∈ ps.map Prod.snd)

/-- Node `id'` is the variable `x`, bound by no function that it stands in, and `id` has come in its
place: `e`, or an expression that differs from `e` only in the names of parameters. -/
structure Arena.Inlined (a : Arena) (names : NameTable) (x : Name) (e : NodeId)
    (ps : List (Name × Name)) (id id' : NodeId) : Prop where
  given : id = e ∨ a.Renames names id e
  replaced : a.node id' = .ok (.var x)
  unbound : x ∉ ps.map Prod.snd
  fresh : ∀ param ∈ ps.map Prod.fst, ¬a.Free param e

/-- The second expression with `e` in the place of every free variable `x` is the first. -/
def Arena.Inlines (a : Arena) (names : NameTable) (x : Name) (e inlined body : NodeId) : Prop :=
  a.Parallel names (Kept x) (a.Inlined names x e) [] (some .type) inlined body

namespace Context

variable {cx : Context} {x : Name} {e inlined body : NodeId} {scope : Scope} {t : TypeId}

theorem typeAt_succ_of_var {id : NodeId} (hn : cx.arena.node id = .ok (.var x))
    (hx : scope.lookup? x = some t) (room : Nat) : cx.typeAt (room + 1) scope id = pure t := by
  have hop : cx.arena.operation cx.names id = .ok (.var x) := Arena.operation_iff.2 hn
  rw [typeAt, hop]
  change Eval.resolved (scope.lookup? x) _ = _
  rw [hx]
  rfl

/-- With no more levels than it took the first time, an expression is evaluated again to the same
type, wherever the scope says the same about its free variables. -/
theorem redoes_typeAt {s : Store} {p : Progress} {room level : Nat}
    (he : cx.typeAt level scope e ⟨s, []⟩ = .ok t p) (hroom : room ≤ level) {q : Store}
    (hq : p.store ≤ q) : (cx.typeAt room scope e).Redoes q (.ok t) := by
  have hsettles := Eval.Settles.stepwise.typeAt_and_holdsAt cx
  have hrecalls : Eval.Recalls s (cx.typeAt room scope e) (cx.typeAt level scope e) :=
    ((Eval.Recalls.lockstep s).typeAt_and_holdsAt cx cx rfl rfl ((Eval.Recalls.lockstep s).alike _)
      (fun room scope id => .exhausted cx ((hsettles room).1 scope id))
      (fun room scope id => .exhausted cx ((hsettles room).2 scope id)) hroom).1 e rfl
  exact hrecalls.again (le_refl s) he hq

theorem recalls_inlines (h : cx.arena.Inlines cx.names x e inlined body) {s : Store} {p : Progress}
    {level : Nat} (he : cx.typeAt level scope e ⟨s, []⟩ = .ok t p) :
    Eval.Recalls p.store (cx.typeAt level scope inlined)
      (cx.typeAt level (scope.extend [(x, t)]) body) := by
  have hlock := Eval.Recalls.lockstep p.store
  have hvar {ps scope₁ scope₂ y y'}
      (hs : Scope.Inside scope (scope.extend [(x, t)]) ps scope₁ scope₂) (hy : Kept x ps y y') :
      scope₁.lookup? y = scope₂.lookup? y' ∧ (scope₁.lookup? y = none → y = y') := by
    rcases hs.of_corresponds hy.1 with ⟨u, hu, hu'⟩ | ⟨rfl, hleft, hright⟩
    · rw [hu, hu']
      exact ⟨rfl, nofun⟩
    · have hne : x ≠ y := by
        rintro rfl
        exact hright (hy.2 rfl)
      rw [hs.lookup?_left hleft, hs.lookup?_right hright, Scope.lookup?_extend_single, if_neg hne]
      exact ⟨rfl, fun _ => rfl⟩
  have hswap {ps scope₁ scope₂ id id'}
      (hs : Scope.Inside scope (scope.extend [(x, t)]) ps scope₁ scope₂)
      (hid : cx.arena.Inlined cx.names x e ps id id') (room room' : Nat) (hroom : room < level) :
      Eval.Recalls p.store (cx.typeAt (room + 1) scope₁ id) (cx.typeAt (room' + 1) scope₂ id') := by
    have hbound : scope₂.lookup? x = some t := by
      rw [hs.lookup?_right hid.unbound, Scope.lookup?_extend_single, if_pos rfl]
    -- No function on the way to `id` changes what the scope says about the variables of `e`.
    have hagree : scope₁.AgreeOn scope cx.arena e := by
      intro name hfree
      exact hs.lookup?_left fun hmem => hid.fresh name hmem hfree
    have hgiven : cx.typeAt (room + 1) scope₁ id = cx.typeAt (room + 1) scope e := by
      rw [← typeAt_coincides (fun _ _ => rfl) hagree (room + 1)]
      rcases hid.given with rfl | hrenames
      · rfl
      · exact typeAt_renames hrenames (room + 1) scope₁
    rw [hgiven, typeAt_succ_of_var hid.replaced hbound room']
    refine ⟨fun q => le_refl q.store, fun {q u q' s'} hq hu hle => ?_, nofun⟩
    cases hu
    exact redoes_typeAt he hroom (hq.trans hle)
  exact hlock.typeAt_of_pairing (pairing_of_facing hlock hvar hswap)
    (fun _ => .exhausted cx (.throw _)) ⟨[], .base, h⟩

/-- Let `e` be evaluated, then `body` with `x` bound to the type of `e`, and then `body` with `e` in
the place of `x`. The last evaluation adds nothing to the store; and unless it runs out of levels, it
gives the type that the second one gave, or fails as that one failed. -/
theorem evaluate_inlines (cx : Context) {x : Name} {e inlined body : NodeId}
    (h : cx.arena.Inlines cx.names x e inlined body) {scope : Scope} {s : Store} {given : Evaluation}
    (he : (cx.evaluate scope e s).1 = .ok given) :
    let bound := cx.evaluate (scope.extend [(x, given.type)]) body (cx.evaluate scope e s).2
    let again := cx.evaluate scope inlined bound.2
    again.2 = bound.2 ∧ ((∀ max, again.1 ≠ .error (.error (.depthExceeded max))) →
      again.1.map Evaluation.type = bound.1.map Evaluation.type) := by
  intro bound again
  obtain ⟨p, hgiven, hstore⟩ : ∃ p, cx.typeAt (cx.limit.room 0) scope e ⟨s, []⟩ = .ok given.type p ∧
      (cx.evaluate scope e s).2 = p.store := by
    unfold evaluate at he ⊢
    split at he
    · rename_i hgiven
      cases he
      exact ⟨_, hgiven, rfl⟩
    · cases he
  have hrecalls := recalls_inlines h hgiven
  have hstart : p.store ≤ (⟨p.store, []⟩ : Progress).store := le_refl p.store
  have hredoes : (cx.typeAt (cx.limit.room 0) scope inlined).Redoes bound.2
      (bound.1.map Evaluation.type) := by
    unfold bound
    rw [hstore, evaluate]
    cases hbody : cx.typeAt (cx.limit.room 0) (scope.extend [(x, given.type)]) body ⟨p.store, []⟩ with
    | ok t p' => exact hrecalls.again hstart hbody (le_refl p'.store)
    | error e p' => exact hrecalls.fails hstart hbody
  obtain ⟨misses, hend | ⟨max, hcut⟩⟩ := hredoes []
  · unfold again
    rw [evaluate, hend]
    cases bound.1 <;> exact ⟨rfl, fun _ => rfl⟩
  · unfold again
    rw [evaluate, hcut]
    exact ⟨rfl, fun hne => absurd rfl (hne max)⟩

end Context

/-- `union(y, z)` at node 3, `union(x, mapunion(x, (x) => x))` at node 6, and at node 8 the same with
`union(y, z)` in the place of the two free variables `x`. -/
def Arena.inlined : Arena :=
  ⟨#[.var ⟨0, 1⟩, .var ⟨0, 2⟩, .var ⟨0, 3⟩, .call ⟨9, 0⟩ ⟨0, 2⟩, .function ⟨0, 1⟩ ⟨0⟩,
      .call ⟨7, 0⟩ ⟨2, 2⟩, .call ⟨9, 0⟩ ⟨4, 2⟩, .call ⟨7, 0⟩ ⟨6, 2⟩, .call ⟨9, 0⟩ ⟨8, 2⟩],
    #[⟨1⟩, ⟨2⟩, ⟨0⟩, ⟨4⟩, ⟨0⟩, ⟨5⟩, ⟨3⟩, ⟨4⟩, ⟨3⟩, ⟨7⟩]⟩

theorem Arena.inlined_inlines : inlined.Inlines (.new .byScalars) ⟨0, 1⟩ ⟨3⟩ ⟨8⟩ ⟨6⟩ := by
  have hx : inlined.Inlined (.new .byScalars) ⟨0, 1⟩ ⟨3⟩ [] ⟨3⟩ ⟨0⟩ :=
    ⟨.inl rfl, rfl, List.not_mem_nil, nofun⟩
  have hbound : Kept ⟨0, 1⟩ [(⟨0, 1⟩, ⟨0, 1⟩)] ⟨0, 1⟩ ⟨0, 1⟩ := ⟨.bound, fun _ => by decide⟩
  have hunion : (NameTable.new .byScalars).operator ⟨9, 0⟩ = .ok (.type .union) := rfl
  have hmap : (NameTable.new .byScalars).operator ⟨7, 0⟩ = .ok (.type .mapUnion) := rfl
  refine .call_pair rfl rfl rfl rfl hunion (.swap hx) ?_
  refine .call_pair rfl rfl rfl rfl hmap (.swap hx) ?_
  exact .function rfl rfl fun _ => .var rfl rfl fun _ => hbound

/-- The union of `y` and `z` is made by the first evaluation; the other two find it. -/
theorem Context.inlined_evaluate_inlines :
    let cx : Context := ⟨.new .byScalars, .inlined, fun _ => none, ⟨4⟩⟩
    let scope : Scope := .ofBindings [(⟨0, 2⟩, ⟨3⟩), (⟨0, 3⟩, ⟨4⟩)]
    let given := cx.evaluate scope ⟨3⟩ (.sample ⟨1, 0⟩ ⟨2, 0⟩)
    let bound := cx.evaluate (scope.extend [(⟨0, 1⟩, ⟨5⟩)]) ⟨6⟩ given.2
    let again := cx.evaluate scope ⟨8⟩ bound.2
    given.1 = .ok ⟨⟨5⟩, []⟩ ∧ bound.1 = .ok ⟨⟨5⟩, []⟩ ∧ again.2 = bound.2 ∧
      again.1.map Evaluation.type = bound.1.map Evaluation.type := by
  intro cx scope given bound again
  have hgiven : given.1 = .ok ⟨⟨5⟩, []⟩ := by decide +kernel
  have hbound : bound.1 = .ok ⟨⟨5⟩, []⟩ := by decide +kernel
  have hagain : again.1 = .ok ⟨⟨5⟩, []⟩ := by decide +kernel
  have hcut (max : Nat) : again.1 ≠ .error (.error (.depthExceeded max)) := by
    rw [hagain]
    nofun
  have h := cx.evaluate_inlines Arena.inlined_inlines hgiven
  exact ⟨hgiven, hbound, h.1, h.2 hcut⟩

end TypeCalculus
