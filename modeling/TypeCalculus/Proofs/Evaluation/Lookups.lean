import Mathlib.Data.List.Induction
import TypeCalculus.Proofs.Evaluation.Laziness
import TypeCalculus.Proofs.Store.Reading

/-!
The look-ups of an evaluation in the order in which they are made. A run is laid out as visits to
nodes, without a limit and without a list of misses that grows along the way; what an evaluation
reports are the failed look-ups of its run, each of them where it fails first.
-/

namespace TypeCalculus

/-- What a look-up comes to: what it found, or `?` and a miss. -/
inductive Resolves (miss : Miss) : Option TypeId → List Miss → TypeId → Prop where
  | found (t : TypeId) : Resolves miss (some t) [] t
  | missed : Resolves miss none [miss] .unknown

/-- The answer to a condition on types with these handles. -/
inductive Condition.Decides (s : Store) : Condition → List TypeId → Bool → Prop where
  | eq {left right l r} : Decides s (.eq left right) [l, r] (l = r)
  | sub {lower upper l u b} : s.isSubtype l u = .ok b → Decides s (.sub lower upper) [l, u] b
  | isTemplatized {subject t traits} : s.traits t = .ok traits →
      Decides s (.isTemplatized subject) [t] traits.isApplied
  | isUnknown {subject t} : Decides s (.isUnknown subject) [t] t.isUnknown

namespace Context

mutual

/-- A visit to a node finds the store `s` and leaves `s'`. The look-ups that fail during the visit
are `trace`, in the order in which they are made and as often as they are made. -/
inductive Visits (cx : Context) : Scope → NodeId → Store → List Miss → TypeId → Store → Prop where
  | var {scope id name s trace t} : cx.arena.Asks cx.names id (.var name) →
      Resolves (.unboundVariable name) (scope.lookup? name) trace t → Visits cx scope id s trace t s
  | empty {scope id s} : cx.arena.Asks cx.names id .empty → Visits cx scope id s [] .empty s
  | all {scope id s} : cx.arena.Asks cx.names id .all → Visits cx scope id s [] .all s
  | unknown {scope id s} : cx.arena.Asks cx.names id .unknown → Visits cx scope id s [] .unknown s
  | named {scope id name args s trace ts s₁ trace' base t s'} :
      cx.arena.Asks cx.names id (.named name args) →
      VisitsAll cx (args.map (scope, ·)) s trace ts s₁ →
      Resolves (.undeclaredType name) (cx.declared? name) trace' base →
      Store.applied base ts s₁ = .ok t s' → Visits cx scope id s (trace ++ trace') t s'
  | union {scope id operands s trace ts s₁ t s'} : cx.arena.Asks cx.names id (.union operands) →
      VisitsAll cx (operands.map (scope, ·)) s trace ts s₁ →
      Store.union ts s₁ = .ok t s' → Visits cx scope id s trace t s'
  | cond {scope id test yes no condition s trace ts s₁ b trace' t s'} :
      cx.arena.Asks cx.names id (.cond test yes no) → cx.arena.Tests cx.names test condition →
      VisitsAll cx (condition.parts.map (scope, ·)) s trace ts s₁ → condition.Decides s₁ ts b →
      Visits cx scope (if b then yes else no) s₁ trace' t s' →
      Visits cx scope id s (trace ++ trace') t s'
  | mapUnion {scope id source param body s trace t s₁ members trace' ts s₂ u s'} :
      cx.arena.Asks cx.names id (.mapUnion source param body) →
      Visits cx scope source s trace t s₁ →
      s₁.members t = .ok members → members.Pairwise (· < ·) →
      VisitsAll cx (members.map fun m => (scope.extend [(param, m)], body)) s₁ trace' ts s₂ →
      Store.union ts s₂ = .ok u s' → Visits cx scope id s (trace ++ trace') u s'
  | rawTypeOf {scope id subject s trace t s' base} : cx.arena.Asks cx.names id (.rawTypeOf subject) →
      Visits cx scope subject s trace t s' → s'.base? t = .ok base →
      Visits cx scope id s trace (base.getD .unknown) s'
  | templateTypeOf {scope id subject place s trace t s' args} :
      cx.arena.Asks cx.names id (.templateTypeOf subject place) →
      Visits cx scope subject s trace t s' → s'.args t = .ok args →
      Visits cx scope id s trace (args[place]?.getD .unknown) s'

/-- One visit after the other, each to a node in a scope of its own. -/
inductive VisitsAll (cx : Context) :
    List (Scope × NodeId) → Store → List Miss → List TypeId → Store → Prop where
  | nil {s} : VisitsAll cx [] s [] [] s
  | cons {scope id rest s trace t s₁ trace' ts s'} : Visits cx scope id s trace t s₁ →
      VisitsAll cx rest s₁ trace' ts s' →
      VisitsAll cx ((scope, id) :: rest) s (trace ++ trace') (t :: ts) s'

end

/-- The name stands for nothing, in the scope or among the declarations. -/
def Lacks (cx : Context) (scope : Scope) : Miss → Prop
  | .unboundVariable name => scope.lookup? name = none
  | .undeclaredType name => cx.declared? name = none

end Context

section Determinism

variable {miss : Miss} {found : Option TypeId} {trace trace' : List Miss} {t u : TypeId}

theorem Resolves.unique (h : Resolves miss found trace t) (h' : Resolves miss found trace' u) :
    trace = trace' ∧ t = u := by
  cases h with
  | found t =>
    cases h'
    exact ⟨rfl, rfl⟩
  | missed =>
    cases h'
    exact ⟨rfl, rfl⟩

theorem Resolves.eq_of_mem (h : Resolves miss found trace t) {other : Miss} (hother : other ∈ trace) :
    other = miss ∧ found = none := by
  cases h with
  | found t => cases hother
  | missed => exact ⟨List.mem_singleton.1 hother, rfl⟩

theorem Condition.Decides.unique {s : Store} {condition : Condition} {ts : List TypeId} {b b' : Bool}
    (h : condition.Decides s ts b) (h' : condition.Decides s ts b') : b = b' := by
  cases h with
  | eq | isUnknown =>
    cases h'
    rfl
  | sub hb =>
    cases h' with
    | sub hb' => exact Except.ok.inj (hb.symm.trans hb')
  | isTemplatized ht =>
    cases h' with
    | isTemplatized ht' => rw [Except.ok.inj (ht.symm.trans ht')]

end Determinism

namespace Context

variable {cx : Context}

mutual

/-- There is one run at most. -/
theorem Visits.unique {scope : Scope} {id : NodeId} {s s' : Store} {trace : List Miss} {t : TypeId} :
    cx.Visits scope id s trace t s' → ∀ {trace' t' s''}, cx.Visits scope id s trace' t' s'' →
      trace = trace' ∧ t = t' ∧ s' = s''
  | .var hop hfound, _, _, _, h' => by
    cases h' with
    | var hop' hfound' =>
      cases hop.unique hop'
      obtain ⟨rfl, rfl⟩ := hfound.unique hfound'
      exact ⟨rfl, rfl, rfl⟩
    | _ hop' => cases hop.unique hop'
  | .empty hop, _, _, _, h' => by
    cases h' with
    | empty => exact ⟨rfl, rfl, rfl⟩
    | _ hop' => cases hop.unique hop'
  | .all hop, _, _, _, h' => by
    cases h' with
    | all => exact ⟨rfl, rfl, rfl⟩
    | _ hop' => cases hop.unique hop'
  | .unknown hop, _, _, _, h' => by
    cases h' with
    | unknown => exact ⟨rfl, rfl, rfl⟩
    | _ hop' => cases hop.unique hop'
  | .named hop hargs hfound hmade, _, _, _, h' => by
    cases h' with
    | named hop' hargs' hfound' hmade' =>
      cases hop.unique hop'
      obtain ⟨rfl, rfl, rfl⟩ := hargs.unique hargs'
      obtain ⟨rfl, rfl⟩ := hfound.unique hfound'
      cases hmade.symm.trans hmade'
      exact ⟨rfl, rfl, rfl⟩
    | _ hop' => cases hop.unique hop'
  | .union hop hoperands hmade, _, _, _, h' => by
    cases h' with
    | union hop' hoperands' hmade' =>
      cases hop.unique hop'
      obtain ⟨rfl, rfl, rfl⟩ := hoperands.unique hoperands'
      cases hmade.symm.trans hmade'
      exact ⟨rfl, rfl, rfl⟩
    | _ hop' => cases hop.unique hop'
  | .cond hop htests hparts hb hbranch, _, _, _, h' => by
    cases h' with
    | cond hop' htests' hparts' hb' hbranch' =>
      cases hop.unique hop'
      cases htests.unique htests'
      obtain ⟨rfl, rfl, rfl⟩ := hparts.unique hparts'
      cases hb.unique hb'
      obtain ⟨rfl, rfl, rfl⟩ := hbranch.unique hbranch'
      exact ⟨rfl, rfl, rfl⟩
    | _ hop' => cases hop.unique hop'
  | .mapUnion hop hsource hmembers _ hbodies hmade, _, _, _, h' => by
    cases h' with
    | mapUnion hop' hsource' hmembers' _ hbodies' hmade' =>
      cases hop.unique hop'
      obtain ⟨rfl, rfl, rfl⟩ := hsource.unique hsource'
      cases hmembers.symm.trans hmembers'
      obtain ⟨rfl, rfl, rfl⟩ := hbodies.unique hbodies'
      cases hmade.symm.trans hmade'
      exact ⟨rfl, rfl, rfl⟩
    | _ hop' => cases hop.unique hop'
  | .rawTypeOf hop hsubject hbase, _, _, _, h' => by
    cases h' with
    | rawTypeOf hop' hsubject' hbase' =>
      cases hop.unique hop'
      obtain ⟨rfl, rfl, rfl⟩ := hsubject.unique hsubject'
      cases hbase.symm.trans hbase'
      exact ⟨rfl, rfl, rfl⟩
    | _ hop' => cases hop.unique hop'
  | .templateTypeOf hop hsubject hargs, _, _, _, h' => by
    cases h' with
    | templateTypeOf hop' hsubject' hargs' =>
      cases hop.unique hop'
      obtain ⟨rfl, rfl, rfl⟩ := hsubject.unique hsubject'
      cases hargs.symm.trans hargs'
      exact ⟨rfl, rfl, rfl⟩
    | _ hop' => cases hop.unique hop'

theorem VisitsAll.unique {jobs : List (Scope × NodeId)} {s s' : Store} {trace : List Miss}
    {ts : List TypeId} : cx.VisitsAll jobs s trace ts s' →
      ∀ {trace' ts' s''}, cx.VisitsAll jobs s trace' ts' s'' → trace = trace' ∧ ts = ts' ∧ s' = s''
  | .nil, _, _, _, h' => by
    cases h'
    exact ⟨rfl, rfl, rfl⟩
  | .cons hfirst hrest, _, _, _, h' => by
    cases h' with
    | cons hfirst' hrest' =>
      obtain ⟨rfl, rfl, rfl⟩ := Visits.unique hfirst hfirst'
      obtain ⟨rfl, rfl, rfl⟩ := VisitsAll.unique hrest hrest'
      exact ⟨rfl, rfl, rfl⟩

end

theorem VisitsAll.length_eq {jobs : List (Scope × NodeId)} {s s' : Store} {trace : List Miss}
    {ts : List TypeId} : cx.VisitsAll jobs s trace ts s' → ts.length = jobs.length
  | .nil => rfl
  | .cons _ hrest => congrArg (· + 1) hrest.length_eq

section Lacking

variable {scope : Scope} {param : Name} {m : TypeId} {miss : Miss}

theorem Lacks.of_extend (h : cx.Lacks (scope.extend [(param, m)]) miss) : cx.Lacks scope miss := by
  cases miss with
  | undeclaredType name => exact h
  | unboundVariable name =>
    have hlookup : (if param = name then some m else scope.lookup? name) = none :=
      (scope.lookup?_extend_single param name m).symm.trans h
    split at hlookup
    · cases hlookup
    · exact hlookup

theorem not_lacks_param : ¬cx.Lacks (scope.extend [(param, m)]) (.unboundVariable param) := by
  intro h
  have hlookup := (scope.lookup?_extend_single param param m).symm.trans h
  rw [if_pos rfl] at hlookup
  cases hlookup

end Lacking

mutual

/-- Every miss of a run is a look-up that fails also in the scope of its root. -/
theorem Visits.lacks {scope : Scope} {id : NodeId} {s s' : Store} {trace : List Miss} {t : TypeId} :
    cx.Visits scope id s trace t s' → ∀ miss ∈ trace, cx.Lacks scope miss
  | .var _ hfound => by
    intro miss hmiss
    obtain ⟨rfl, hnone⟩ := hfound.eq_of_mem hmiss
    exact hnone
  | .empty _ | .all _ | .unknown _ => nofun
  | .named _ hargs hfound _ => by
    refine List.forall_mem_append.2 ⟨fun miss hmiss => ?_, fun miss hmiss => ?_⟩
    · obtain ⟨job, hjob, h⟩ := hargs.lacks miss hmiss
      obtain ⟨arg, -, rfl⟩ := List.mem_map.1 hjob
      exact h
    · obtain ⟨rfl, hnone⟩ := hfound.eq_of_mem hmiss
      exact hnone
  | .union _ hoperands _ => by
    intro miss hmiss
    obtain ⟨job, hjob, h⟩ := hoperands.lacks miss hmiss
    obtain ⟨operand, -, rfl⟩ := List.mem_map.1 hjob
    exact h
  | .cond _ _ hparts _ hbranch => by
    refine List.forall_mem_append.2 ⟨fun miss hmiss => ?_, hbranch.lacks⟩
    obtain ⟨job, hjob, h⟩ := hparts.lacks miss hmiss
    obtain ⟨part, -, rfl⟩ := List.mem_map.1 hjob
    exact h
  | .mapUnion _ hsource _ _ hbodies _ => by
    refine List.forall_mem_append.2 ⟨hsource.lacks, fun miss hmiss => ?_⟩
    obtain ⟨job, hjob, h⟩ := hbodies.lacks miss hmiss
    obtain ⟨m, -, rfl⟩ := List.mem_map.1 hjob
    -- The body is visited in a larger scope, so what fails there fails outside as well.
    exact h.of_extend
  | .rawTypeOf _ hsubject _ | .templateTypeOf _ hsubject _ => hsubject.lacks

theorem VisitsAll.lacks {jobs : List (Scope × NodeId)} {s s' : Store} {trace : List Miss}
    {ts : List TypeId} : cx.VisitsAll jobs s trace ts s' →
      ∀ miss ∈ trace, ∃ job ∈ jobs, cx.Lacks job.1 miss
  | .nil => nofun
  | .cons hfirst hrest => by
    refine List.forall_mem_append.2 ⟨fun miss hmiss => ?_, fun miss hmiss => ?_⟩
    · exact ⟨_, List.mem_cons_self, hfirst.lacks miss hmiss⟩
    · obtain ⟨job, hjob, h⟩ := hrest.lacks miss hmiss
      exact ⟨job, List.mem_cons_of_mem _ hjob, h⟩

end

end Context

/-- The list without repetitions grows by what is not yet in it. -/
theorem eraseDups_concat {α : Type} [BEq α] [LawfulBEq α] (as : List α) (a : α) :
    (as ++ [a]).eraseDups = if a ∈ as then as.eraseDups else as.eraseDups ++ [a] := by
  rw [List.eraseDups_append]
  split
  · rename_i h
    simp [List.removeAll, h]
  · rename_i h
    simp [List.removeAll, h, List.eraseDups_cons]

theorem nodup_eraseDups {α : Type} [BEq α] [LawfulBEq α] (as : List α) :
    as.eraseDups.Nodup := by
  induction as using List.reverseRecOn with
  | nil => exact List.nodup_nil
  | append_singleton as a ih =>
    rw [eraseDups_concat]
    split
    · exact ih
    · rename_i h
      have hnew : a ∉ as.eraseDups := mt List.mem_eraseDups.1 h
      exact ih.append (List.nodup_singleton a) (List.disjoint_singleton.2 hnew)

/-- If the misses so far were the failed look-ups before, without repetitions, they are that for the
longer run too, after the look-ups in `trace` have failed. -/
def Progress.Notes (p : Progress) (trace : List Miss) (p' : Progress) : Prop :=
  ∀ before : List Miss, p.misses = before.eraseDups → p'.misses = (before ++ trace).eraseDups

namespace Progress.Notes

variable {p p' p'' : Progress} {trace trace' : List Miss}

theorem of_eq (h : p'.misses = p.misses) : p.Notes [] p' := by
  intro before hp
  rw [List.append_nil, h, hp]

theorem trans (h : p.Notes trace p') (h' : p'.Notes trace' p'') : p.Notes (trace ++ trace') p'' := by
  intro before hp
  rw [← List.append_assoc]
  exact h' (before ++ trace) (h before hp)

theorem append_nil (h : p.Notes trace p') (heq : p''.misses = p'.misses) : p.Notes trace p'' := by
  intro before hp
  rw [heq, h before hp]

theorem note {miss : Miss} (h : Eval.note miss p = .ok () p') : p.Notes [miss] p' := by
  intro before hp
  rw [eraseDups_concat]
  split
  · rename_i hmem
    rw [Eval.note_of_mem (by rwa [hp, List.mem_eraseDups])] at h
    cases h
    exact hp
  · rename_i hmem
    rw [Eval.note_of_not_mem (by rwa [hp, List.mem_eraseDups])] at h
    cases h
    exact congrArg (· ++ [miss]) hp

end Progress.Notes

theorem Condition.decides_of_conclude {condition : Condition} {ts : List TypeId} {b : Bool}
    {p p' : Progress} (hlength : ts.length = condition.parts.length)
    (h : condition.conclude ts p = .ok b p') : p' = p ∧ condition.Decides p.store ts b := by
  cases condition with
  | eq =>
    obtain ⟨l, r, rfl⟩ := List.length_eq_two.1 hlength
    cases h
    exact ⟨rfl, .eq⟩
  | sub =>
    obtain ⟨l, u, rfl⟩ := List.length_eq_two.1 hlength
    have hask : Eval.ask (·.isSubtype l u) p = .ok b p' := h
    obtain ⟨hb, rfl⟩ := Eval.ask_eq_ok_iff.1 hask
    exact ⟨rfl, .sub hb⟩
  | isTemplatized =>
    obtain ⟨t, rfl⟩ := List.length_eq_one_iff.1 hlength
    obtain ⟨traits, p₁, hask, h⟩ := bind_apply_eq_ok_iff.1 h
    obtain ⟨htraits, rfl⟩ := Eval.ask_eq_ok_iff.1 hask
    cases h
    exact ⟨rfl, .isTemplatized htraits⟩
  | isUnknown =>
    obtain ⟨t, rfl⟩ := List.length_eq_one_iff.1 hlength
    cases h
    exact ⟨rfl, .isUnknown⟩

section Members

variable {s : Store} {t : TypeId}

theorem Store.WellFormed.ascending_members (h : s.WellFormed) {members : List TypeId}
    (hms : s.members t = .ok members) : members.Pairwise (· < ·) := by
  obtain ⟨shape, hs, hms⟩ := bind_eq_ok_iff.1 hms
  cases shape with
  | union members =>
    cases hms
    exact (h.normal hs).2.1
  | empty =>
    cases hms
    exact .nil
  | unknown | all | named | applied =>
    cases hms
    exact List.pairwise_singleton _ _

/-- `?` takes no template arguments. -/
theorem Store.WellFormed.applied_unknown (h : s.WellFormed) (args : List TypeId) :
    Store.applied .unknown args s = .ok .unknown s := by
  have hk : s.kind .unknown = .ok .unknown := bind_eq_ok_iff.2 ⟨_, h.unknown.2 rfl, rfl⟩
  rw [applied_eq, hk]
  split
  · rfl
  · rfl

end Members

namespace Context

variable {cx : Context} {scope : Scope} {p p' : Progress} {t : TypeId}

/-- What succeeds in type position is a visit, and what it notes are the failed look-ups of that
visit. -/
def Shows (cx : Context) (typeOf : Scope → NodeId → Eval TypeId) : Prop :=
  ∀ {scope id p t p'}, p.store.WellFormed → typeOf scope id p = .ok t p' →
    p'.store.WellFormed ∧ ∃ trace, cx.Visits scope id p.store trace t p'.store ∧ p.Notes trace p'

/-- The same for a condition, of which the parts are visited. -/
def Answers (cx : Context) (holds : Scope → NodeId → Eval Bool) : Prop :=
  ∀ {scope id p b p'}, p.store.WellFormed → holds scope id p = .ok b p' →
    p'.store.WellFormed ∧ ∃ condition trace ts, cx.arena.Tests cx.names id condition ∧
      cx.VisitsAll (condition.parts.map (scope, ·)) p.store trace ts p'.store ∧
      condition.Decides p'.store ts b ∧ p.Notes trace p'

theorem exists_resolves {found : Option TypeId} {miss : Miss}
    (h : Eval.resolved found miss p = .ok t p') :
    p'.store = p.store ∧ ∃ trace, Resolves miss found trace t ∧ p.Notes trace p' := by
  cases found with
  | some u =>
    cases h
    exact ⟨rfl, [], .found t, .of_eq rfl⟩
  | none =>
    obtain ⟨_, p₁, hnote, h⟩ := bind_apply_eq_ok_iff.1 h
    cases h
    have hstore := Eval.note_store miss p
    rw [hnote] at hstore
    exact ⟨hstore, [miss], .missed, .note hnote⟩

theorem made_of_build {former : Store.Former} (hwf : p.store.WellFormed)
    (h : Eval.build former.make p = .ok t p') :
    p'.store.WellFormed ∧ former.make p.store = .ok t p'.store ∧ p'.misses = p.misses := by
  obtain ⟨s, hmade, rfl⟩ := Eval.build_eq_ok_iff.1 h
  have hs := hwf.make former
  rw [hmade] at hs
  exact ⟨hs, hmade, rfl⟩

namespace Shows

variable {typeOf : Scope → NodeId → Eval TypeId} {holds : Scope → NodeId → Eval Bool} {id : NodeId}
  (ht : cx.Shows typeOf)

include ht

theorem visitsAll {α : Type} (job : α → Scope × NodeId) {as : List α} {ts : List TypeId}
    (hwf : p.store.WellFormed) (h : as.mapM (fun a => typeOf (job a).1 (job a).2) p = .ok ts p') :
    p'.store.WellFormed ∧
      ∃ trace, cx.VisitsAll (as.map job) p.store trace ts p'.store ∧ p.Notes trace p' := by
  induction as generalizing p ts with
  | nil =>
    cases h
    exact ⟨hwf, [], .nil, .of_eq rfl⟩
  | cons a as ih =>
    rw [List.mapM_cons] at h
    obtain ⟨t, p₁, hfirst, h⟩ := bind_apply_eq_ok_iff.1 h
    obtain ⟨ts, p₂, hrest, h⟩ := bind_apply_eq_ok_iff.1 h
    cases h
    obtain ⟨hwf₁, trace, hvisits, hnotes⟩ := ht hwf hfirst
    obtain ⟨hwf₂, trace', hvisits', hnotes'⟩ := ih hwf₁ hrest
    exact ⟨hwf₂, trace ++ trace', .cons hvisits hvisits', hnotes.trans hnotes'⟩

theorem condition {condition : Condition} {b : Bool} (htests : cx.arena.Tests cx.names id condition)
    (hwf : p.store.WellFormed) (h : condition.eval typeOf scope p = .ok b p') :
    p'.store.WellFormed ∧ ∃ condition trace ts, cx.arena.Tests cx.names id condition ∧
      cx.VisitsAll (condition.parts.map (scope, ·)) p.store trace ts p'.store ∧
      condition.Decides p'.store ts b ∧ p.Notes trace p' := by
  rw [Condition.eval_eq] at h
  obtain ⟨ts, p₁, hparts, hb⟩ := bind_apply_eq_ok_iff.1 h
  obtain ⟨hwf₁, trace, hvisits, hnotes⟩ := ht.visitsAll (scope, ·) hwf hparts
  have hlength : ts.length = condition.parts.length := by
    rw [hvisits.length_eq, List.length_map]
  obtain ⟨rfl, hdecides⟩ := Condition.decides_of_conclude hlength hb
  exact ⟨hwf₁, condition, trace, ts, htests, hvisits, hdecides, hnotes⟩

theorem operation {op : Operation} (hop : cx.arena.Asks cx.names id op) (hh : cx.Answers holds)
    (hwf : p.store.WellFormed) (h : op.eval typeOf cx.declared? holds scope p = .ok t p') :
    p'.store.WellFormed ∧ ∃ trace, cx.Visits scope id p.store trace t p'.store ∧ p.Notes trace p' := by
  cases op with
  | var name =>
    obtain ⟨hstore, trace, hfound, hnotes⟩ := exists_resolves h
    rw [hstore]
    exact ⟨hwf, trace, .var hop hfound, hnotes⟩
  | empty =>
    cases h
    exact ⟨hwf, [], .empty hop, .of_eq rfl⟩
  | all =>
    cases h
    exact ⟨hwf, [], .all hop, .of_eq rfl⟩
  | unknown =>
    cases h
    exact ⟨hwf, [], .unknown hop, .of_eq rfl⟩
  | named name args =>
    obtain ⟨ts, p₁, hargs, h⟩ := bind_apply_eq_ok_iff.1 h
    obtain ⟨base, p₂, hbase, h⟩ := bind_apply_eq_ok_iff.1 h
    obtain ⟨hwf₁, trace, hvisits, hnotes⟩ := ht.visitsAll (scope, ·) hwf hargs
    obtain ⟨hstore, trace', hfound, hnotes'⟩ := exists_resolves hbase
    have hnotes₂ := hnotes.trans hnotes'
    -- Looking the name up leaves the store as the arguments left it.
    rw [← hstore] at hvisits hwf₁
    split at h
    · rename_i hunknown
      subst hunknown
      cases h
      exact ⟨hwf₁, trace ++ trace', .named hop hvisits hfound (hwf₁.applied_unknown ts), hnotes₂⟩
    · obtain ⟨hwf', hmade, hmisses⟩ := @made_of_build _ _ _ (.applied base ts) hwf₁ h
      exact ⟨hwf', trace ++ trace', .named hop hvisits hfound hmade, hnotes₂.append_nil hmisses⟩
  | union operands =>
    obtain ⟨ts, p₁, hoperands, h⟩ := bind_apply_eq_ok_iff.1 h
    obtain ⟨hwf₁, trace, hvisits, hnotes⟩ := ht.visitsAll (scope, ·) hwf hoperands
    obtain ⟨hwf', hmade, hmisses⟩ := @made_of_build _ _ _ (.union ts) hwf₁ h
    exact ⟨hwf', trace, .union hop hvisits hmade, hnotes.append_nil hmisses⟩
  | cond test yes no =>
    obtain ⟨b, p₁, htest, h⟩ := bind_apply_eq_ok_iff.1 h
    obtain ⟨hwf₁, condition, trace, ts, htests, hvisits, hdecides, hnotes⟩ := hh hwf htest
    have hbranch : typeOf scope (if b then yes else no) p₁ = .ok t p' := by
      cases b <;> exact h
    obtain ⟨hwf', trace', hvisits', hnotes'⟩ := ht hwf₁ hbranch
    exact ⟨hwf', trace ++ trace', .cond hop htests hvisits hdecides hvisits', hnotes.trans hnotes'⟩
  | mapUnion source param body =>
    obtain ⟨u, p₁, hsource, hmap⟩ := bind_apply_eq_ok_iff.1 h
    obtain ⟨members, p₂, hmembers, hmap⟩ := bind_apply_eq_ok_iff.1 hmap
    obtain ⟨hms, rfl⟩ := Eval.ask_eq_ok_iff.1 hmembers
    obtain ⟨ts, p₃, hbodies, hmake⟩ := bind_apply_eq_ok_iff.1 hmap
    obtain ⟨hwf₁, trace, hvisits, hnotes⟩ := ht hwf hsource
    obtain ⟨hwf₂, trace', hvisits', hnotes'⟩ :=
      ht.visitsAll (fun m => (scope.extend [(param, m)], body)) hwf₁ hbodies
    obtain ⟨hwf', hmade, hmisses⟩ := @made_of_build _ _ _ (.union ts) hwf₂ hmake
    have hascending := hwf₁.ascending_members hms
    exact ⟨hwf', trace ++ trace', .mapUnion hop hvisits hms hascending hvisits' hmade,
      (hnotes.trans hnotes').append_nil hmisses⟩
  | rawTypeOf subject =>
    obtain ⟨u, p₁, hsubject, h⟩ := bind_apply_eq_ok_iff.1 h
    obtain ⟨base, p₂, hbase, h⟩ := bind_apply_eq_ok_iff.1 h
    obtain ⟨hb, rfl⟩ := Eval.ask_eq_ok_iff.1 hbase
    cases h
    obtain ⟨hwf₁, trace, hvisits, hnotes⟩ := ht hwf hsubject
    exact ⟨hwf₁, trace, .rawTypeOf hop hvisits hb, hnotes⟩
  | templateTypeOf subject place =>
    obtain ⟨u, p₁, hsubject, h⟩ := bind_apply_eq_ok_iff.1 h
    obtain ⟨args, p₂, hargs, h⟩ := bind_apply_eq_ok_iff.1 h
    obtain ⟨ha, rfl⟩ := Eval.ask_eq_ok_iff.1 hargs
    cases h
    obtain ⟨hwf₁, trace, hvisits, hnotes⟩ := ht hwf hsubject
    exact ⟨hwf₁, trace, .templateTypeOf hop hvisits ha, hnotes⟩

end Shows

theorem typeAt_and_holdsAt_show (cx : Context) (room : Nat) :
    cx.Shows (cx.typeAt room) ∧ cx.Answers (cx.holdsAt room) := by
  induction room with
  | zero => exact ⟨nofun, nofun⟩
  | succ room ih =>
    obtain ⟨iht, ihh⟩ := ih
    constructor
    · intro scope id p t p' hwf h
      obtain ⟨op, p₁, hread, h⟩ := bind_apply_eq_ok_iff.1 h
      obtain ⟨hop, rfl⟩ := Eval.ofExcept_eq_ok_iff.1 hread
      exact iht.operation (Arena.operation_iff.1 hop) ihh hwf h
    · intro scope id p b p' hwf h
      obtain ⟨condition, p₁, hread, h⟩ := bind_apply_eq_ok_iff.1 h
      obtain ⟨hcondition, rfl⟩ := Eval.ofExcept_eq_ok_iff.1 hread
      exact iht.condition (Arena.condition_iff.1 hcondition) hwf h

theorem exists_visits_of_evaluate {root : NodeId} {s s' : Store} {e : Evaluation}
    (hwf : s.WellFormed) (he : cx.evaluate scope root s = (.ok e, s')) :
    ∃ trace, cx.Visits scope root s trace e.type s' ∧ e.misses = trace.eraseDups := by
  unfold evaluate at he
  split at he
  · rename_i t p ht
    cases he
    obtain ⟨-, trace, hvisits, hnotes⟩ := (cx.typeAt_and_holdsAt_show _).1 hwf ht
    exact ⟨trace, hvisits, hnotes [] List.eraseDups_nil.symm⟩
  · cases he

/-- The misses of an evaluation are the failed look-ups of its one run, in the order in which they are
made, each of them where it fails first. So there are no repetitions, and what is reported as missing
is missing; what a function binds is never reported from its body. -/
theorem evaluate_lookups {root : NodeId} {s s' : Store} {e : Evaluation} (h : s.Reachable)
    (he : cx.evaluate scope root s = (.ok e, s')) :
    (∃ trace, cx.Visits scope root s trace e.type s' ∧ e.misses = trace.eraseDups) ∧
    (∀ trace t s'', cx.Visits scope root s trace t s'' → e.misses = trace.eraseDups) ∧
    e.misses.Nodup ∧
    (∀ name, .unboundVariable name ∈ e.misses → scope.lookup? name = none) ∧
    (∀ name, .undeclaredType name ∈ e.misses → cx.declared? name = none) ∧
    ∀ {around : Scope} {param m body before trace t after},
      cx.Visits (around.extend [(param, m)]) body before trace t after →
        .unboundVariable param ∉ trace := by
  obtain ⟨trace, hvisits, hmisses⟩ := exists_visits_of_evaluate h.wellFormed he
  have hlacks : ∀ miss ∈ e.misses, cx.Lacks scope miss := by
    intro miss hmiss
    rw [hmisses, List.mem_eraseDups] at hmiss
    exact hvisits.lacks miss hmiss
  refine ⟨⟨trace, hvisits, hmisses⟩, ?_, ?_, fun name => hlacks _, fun name => hlacks _, ?_⟩
  · intro trace' t s'' hvisits'
    obtain ⟨rfl, -, -⟩ := hvisits.unique hvisits'
    exact hmisses
  · rw [hmisses]
    exact nodup_eraseDups trace
  · intro around param m body before trace t after hbody hmem
    exact not_lacks_param (hbody.lacks _ hmem)

/-- `union(mapunion(x, (y) => union(y, type('U', z))), z)`. The body looks for `z` and then for `U` each
time, and the root looks for `z` once more. -/
def insistent : Context where
  names := .new .byScalars
  arena := ⟨#[.var ⟨0, 2⟩, .str ⟨2, 5⟩, .var ⟨0, 3⟩, .call ⟨2, 0⟩ ⟨0, 2⟩, .call ⟨9, 0⟩ ⟨2, 2⟩, .var ⟨0, 1⟩,
    .function ⟨0, 2⟩ ⟨4⟩, .call ⟨7, 0⟩ ⟨4, 2⟩, .call ⟨9, 0⟩ ⟨6, 2⟩],
    #[⟨1⟩, ⟨2⟩, ⟨0⟩, ⟨3⟩, ⟨5⟩, ⟨6⟩, ⟨7⟩, ⟨2⟩]⟩
  declared? _ := none
  limit := ⟨5⟩

/-- With two members in `x` the run misses `z` three times and `U` twice, and reports each once. -/
theorem insistent_evaluate_lookups :
    (∃ trace t s', insistent.Visits (.ofBindings [(⟨0, 1⟩, ⟨5⟩)]) ⟨8⟩ .sampleTypes trace t s' ∧
        trace.eraseDups = [.unboundVariable ⟨0, 3⟩, .undeclaredType ⟨2, 5⟩]) ∧
      (Scope.ofBindings [(⟨0, 1⟩, ⟨5⟩)]).lookup? ⟨0, 3⟩ = none := by
  have he : (insistent.evaluate (.ofBindings [(⟨0, 1⟩, ⟨5⟩)]) ⟨8⟩ .sampleTypes).1 =
      .ok ⟨.unknown, [.unboundVariable ⟨0, 3⟩, .undeclaredType ⟨2, 5⟩]⟩ := rfl
  obtain ⟨⟨trace, hvisits, htrace⟩, -, -, hunbound, -⟩ :=
    evaluate_lookups Store.sampleTypes_reachable (Prod.ext he rfl)
  exact ⟨⟨trace, _, _, hvisits, htrace.symm⟩, hunbound ⟨0, 3⟩ (by simp)⟩

end Context

end TypeCalculus
