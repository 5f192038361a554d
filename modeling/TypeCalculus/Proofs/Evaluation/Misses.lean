import TypeCalculus.Proofs.Evaluation.Realization

/-!
The misses that an evaluation reports are all that it looked for and did not find. Whatever else is
bound or declared, the evaluation does not see it.
-/

namespace TypeCalculus

namespace Eval

/-- If the step succeeds without any misses other than those listed, `act'` does the same. -/
structure Mirrors (listed : List Miss) {α : Type} (act act' : Eval α) : Prop where
  keeps : ∀ {p a p'}, act p = .ok a p' → p.misses ⊆ p'.misses
  same : ∀ {p a p'}, act p = .ok a p' → p'.misses ⊆ listed → act' p = .ok a p'

/-- What the one look-up finds the other finds too, and what is listed as missed by the one the other
does not find either. -/
def Agree (listed : List Miss) (miss : Name → Miss) (found found' : Name → Option TypeId) : Prop :=
  ∀ name, (∀ t, found name = some t → found' name = some t) ∧
    (found name = none → miss name ∈ listed → found' name = none)

namespace Mirrors

variable {α β : Type} {listed : List Miss}

theorem of_keeps {act : Eval α} (h : ∀ {p a p'}, act p = .ok a p' → p.misses ⊆ p'.misses) :
    Mirrors listed act act := ⟨h, fun hact _ => hact⟩

theorem throw (e : Abort) (act' : Eval α) : Mirrors listed (MonadExcept.throw e) act' :=
  ⟨nofun, nofun⟩

theorem bind {act act' : Eval α} {next next' : α → Eval β} (h : Mirrors listed act act')
    (hn : ∀ a, Mirrors listed (next a) (next' a)) :
    Mirrors listed (act >>= next) (act' >>= next') where
  keeps {p b p'} hb := by
    obtain ⟨a, p₁, hact, hnext⟩ := bind_apply_eq_ok_iff.1 hb
    exact List.Subset.trans (h.keeps hact) ((hn a).keeps hnext)
  same {p b p'} hb hlisted := by
    obtain ⟨a, p₁, hact, hnext⟩ := bind_apply_eq_ok_iff.1 hb
    -- The misses of the first half are still there at the end, so they are listed.
    have hfirst : p₁.misses ⊆ listed := List.Subset.trans ((hn a).keeps hnext) hlisted
    exact bind_apply_eq_ok_iff.2 ⟨a, p₁, h.same hact hfirst, (hn a).same hnext hlisted⟩

theorem mem_note {miss : Miss} {p p' : Progress} (h : Eval.note miss p = .ok () p') :
    p.misses ⊆ p'.misses ∧ miss ∈ p'.misses := by
  by_cases hmem : miss ∈ p.misses
  · rw [note_of_mem hmem] at h
    cases h
    exact ⟨List.Subset.refl _, hmem⟩
  · rw [note_of_not_mem hmem] at h
    cases h
    exact ⟨List.subset_append_left _ _, List.mem_append_right _ List.mem_cons_self⟩

theorem ask (question : Store → Except Fault α) :
    Mirrors listed (Eval.ask question) (Eval.ask question) := by
  refine of_keeps fun h => ?_
  obtain ⟨-, rfl⟩ := ask_eq_ok_iff.1 h
  exact List.Subset.refl _

theorem build (make : StoreM TypeId) : Mirrors listed (Eval.build make) (Eval.build make) := by
  refine of_keeps fun h => ?_
  obtain ⟨s, -, rfl⟩ := build_eq_ok_iff.1 h
  exact List.Subset.refl _

theorem lockstep (listed : List Miss) :
    Lockstep fun _ act act' => Mirrors listed act act' where
  pure a := of_keeps fun h => by
    cases h
    exact List.Subset.refl _
  throw e _ := throw e _
  bind := bind
  note miss := of_keeps fun h => (mem_note h).1
  ask _ := ask _
  union ts := build _
  applied base args := build _

theorem resolved {miss : Name → Miss} {found found' : Name → Option TypeId}
    (h : Agree listed miss found found') (name : Name) :
    Mirrors listed (Eval.resolved (found name) (miss name))
      (Eval.resolved (found' name) (miss name)) := by
  have hself := (lockstep listed).resolved (found name) (miss name)
  refine ⟨hself.keeps, fun {p t p'} hact hlisted => ?_⟩
  cases hf : found name with
  | some u => rwa [(h name).1 u hf, ← hf]
  | none =>
    -- The look-up failed and was noted, so the miss is listed and the other look-up fails as well.
    rw [hf] at hact
    have hnoted : Eval.note (miss name) p = .ok () p' := by
      cases hact
      rfl
    rwa [(h name).2 hf (hlisted (mem_note hnoted).2)]

end Mirrors

end Eval

theorem Eval.Agree.extend {listed : List Miss} {miss : Name → Miss} {scope scope' : Scope}
    (h : Agree listed miss scope.lookup? scope'.lookup?) (binding : Name × TypeId) :
    Agree listed miss (scope.extend [binding]).lookup? (scope'.extend [binding]).lookup? := by
  intro name
  rw [Scope.lookup?_extend_single, Scope.lookup?_extend_single]
  by_cases hn : binding.1 = name
  · rw [if_pos hn, if_pos hn]
    exact ⟨fun _ ht => ht, nofun⟩
  · rw [if_neg hn, if_neg hn]
    exact h name

namespace Context

variable (names : NameTable) (arena : Arena) (limit : DepthLimit)
  {declared? declared' : Name → Option TypeId} {scope scope' : Scope}

theorem mirrors_typeAt {listed : List Miss} (hd : Eval.Agree listed .undeclaredType declared? declared')
    (hs : Eval.Agree listed .unboundVariable scope.lookup? scope'.lookup?) (room : Nat) (id : NodeId) :
    Eval.Mirrors listed (typeAt ⟨names, arena, declared?, limit⟩ room scope id)
      (typeAt ⟨names, arena, declared', limit⟩ room scope' id) := by
  have halike : Eval.Alike (fun _ act act' => Eval.Mirrors listed act act')
      (fun scope scope' => Eval.Agree listed .unboundVariable scope.lookup? scope'.lookup?)
      declared? declared' :=
    ⟨fun name => .resolved hd name, fun name hs => .resolved hs name, fun binding hs => hs.extend binding⟩
  exact ((Eval.Mirrors.lockstep listed).typeAt_and_holdsAt ⟨names, arena, declared?, limit⟩
    ⟨names, arena, declared', limit⟩ rfl rfl halike (fun _ _ _ => .throw _ _)
    (fun _ _ _ => .throw _ _) (Nat.le_refl room)).1 id hs

/-- An evaluation that succeeds is the same wherever the names it found stand for the same types and
the names it reports as missed stand for nothing. -/
theorem evaluate_misses {root : NodeId} {s s' : Store} {e : Evaluation}
    (he : evaluate ⟨names, arena, declared?, limit⟩ scope root s = (.ok e, s'))
    (hbound : ∀ name t, scope.lookup? name = some t → scope'.lookup? name = some t)
    (hunbound : ∀ name, .unboundVariable name ∈ e.misses → scope'.lookup? name = none)
    (hdeclared : ∀ name t, declared? name = some t → declared' name = some t)
    (hundeclared : ∀ name, .undeclaredType name ∈ e.misses → declared' name = none) :
    evaluate ⟨names, arena, declared', limit⟩ scope' root s = (.ok e, s') := by
  have hmirrors : Eval.Mirrors e.misses _ _ := mirrors_typeAt names arena limit
    (fun name => ⟨hdeclared name, fun _ => hundeclared name⟩)
    (fun name => ⟨hbound name, fun _ => hunbound name⟩) (limit.room 0) root
  unfold evaluate at he ⊢
  split at he
  · rename_i t p hact
    cases he
    rw [hmirrors.same hact (List.Subset.refl _)]
  · cases he

/-- `cond(isUnknown(type('U', y)), mapunion(x, (y) => y), none())`. One node stands for `y` where it
is bound and where it is not. -/
def lenient (declared? : Name → Option TypeId) : Context where
  names := .new .byScalars
  arena := ⟨#[.var ⟨0, 2⟩, .str ⟨2, 5⟩, .call ⟨2, 0⟩ ⟨0, 2⟩, .call ⟨12, 0⟩ ⟨2, 1⟩, .var ⟨0, 1⟩,
    .function ⟨0, 2⟩ ⟨0⟩, .call ⟨7, 0⟩ ⟨3, 2⟩, .call ⟨0, 1⟩ ⟨0, 0⟩, .call ⟨4, 0⟩ ⟨5, 3⟩],
    #[⟨1⟩, ⟨0⟩, ⟨2⟩, ⟨4⟩, ⟨5⟩, ⟨3⟩, ⟨6⟩, ⟨7⟩]⟩
  declared? := declared?
  limit := ⟨4⟩

/-- A further variable is bound and a further type declared, and the evaluation does not see them. -/
theorem lenient_evaluate_misses :
    ((lenient fun _ => none).evaluate (.ofBindings [(⟨0, 1⟩, ⟨5⟩)]) ⟨8⟩ .sampleTypes).1 =
        .ok ⟨⟨5⟩, [.unboundVariable ⟨0, 2⟩, .undeclaredType ⟨2, 5⟩]⟩ ∧
      (lenient fun name => if name = ⟨2, 6⟩ then some ⟨4⟩ else none).evaluate
          ((Scope.ofBindings [(⟨0, 1⟩, ⟨5⟩)]).extend [(⟨0, 3⟩, ⟨4⟩)]) ⟨8⟩ .sampleTypes =
        (.ok ⟨⟨5⟩, [.unboundVariable ⟨0, 2⟩, .undeclaredType ⟨2, 5⟩]⟩,
          ((lenient fun _ => none).evaluate (.ofBindings [(⟨0, 1⟩, ⟨5⟩)]) ⟨8⟩ .sampleTypes).2) := by
  have he : ((lenient fun _ => none).evaluate (.ofBindings [(⟨0, 1⟩, ⟨5⟩)]) ⟨8⟩ .sampleTypes).1 =
      .ok ⟨⟨5⟩, [.unboundVariable ⟨0, 2⟩, .undeclaredType ⟨2, 5⟩]⟩ := rfl
  refine ⟨he, evaluate_misses _ _ _ (Prod.ext he rfl) (fun name t ht => ?_) (fun name hname => ?_)
    nofun fun name hname => ?_⟩
  · rw [Scope.lookup?_extend_single]
    split
    · rename_i hn
      subst hn
      cases ht
    · exact ht
  · have hy : name = ⟨0, 2⟩ := by simpa using hname
    subst hy
    rfl
  · have hU : name = ⟨2, 5⟩ := by simpa using hname
    subst hU
    rfl

end Context

end TypeCalculus
