import TypeCalculus.Proofs.Evaluation.Safety
import TypeCalculus.Proofs.Evaluation.Stepwise
import TypeCalculus.Proofs.Expression.Heights

/-!
How many levels an evaluation needs. With as many as its expression is high it is never cut off, and
where nothing is passed over it needs all of them.
-/

namespace TypeCalculus

/-- What an operation goes on to evaluate, in either position. -/
def Operation.parts : Operation → List NodeId
  | var _ | empty | all | unknown => []
  | named _ args => args
  | union operands => operands
  | cond test yes no => [test, yes, no]
  | mapUnion source _ body => [source, body]
  | rawTypeOf subject | templateTypeOf subject _ => [subject]

/-- Whether parts may be passed over, or evaluated more than once. -/
def Operation.isSelective : Operation → Bool
  | cond _ _ _ | mapUnion _ _ _ => true
  | _ => false

theorem Operation.Part.mem_parts {op : Operation} {place : Position} {part : NodeId}
    (h : op.Part place part) : part ∈ op.parts := by
  cases h with
  | arg hmem => exact hmem
  | member hmem => exact hmem
  | test | yes | no | source | body | raw | template => simp [parts]

theorem Operation.Part.eq_type {op : Operation} {place : Position} {part : NodeId}
    (h : op.Part place part) (hop : op.isSelective = false) : place = .type := by
  cases h with
  | test => cases hop
  | _ => rfl

namespace Arena

variable {a : Arena} {names : NameTable} {id : NodeId}

theorem below_of_calls (op : Operator) {operands : List NodeId}
    (h : a.Calls names id op.spelling operands) : a.below names id = a.lower op operands := by
  obtain ⟨callee, range, hn, hcallee, hs⟩ := h
  have hop : names.operator callee = .ok op := NameTable.operator_eq_ok_iff.2 hcallee
  unfold below
  rw [hn]
  dsimp only
  rw [hs, hop]
  rfl

/-- What is below a node is what its operation goes on to evaluate. -/
theorem Asks.below_eq {op : Operation} (h : a.Asks names id op) : a.below names id = op.parts := by
  cases op with
  | var name =>
    have hn : a.node id = .ok (.var name) := h
    simp only [below, hn, Operation.parts]
  | empty => exact below_of_calls (.type .none) h
  | all => exact below_of_calls (.type .all) h
  | unknown => exact below_of_calls (.type .unknown) h
  | named name args =>
    obtain ⟨literal, hc, -⟩ := h
    exact below_of_calls (.type .type) hc
  | union operands => exact below_of_calls (.type .union) h.1
  | cond test yes no => exact below_of_calls (.type .cond) h
  | mapUnion source param body =>
    obtain ⟨function, hc, hf⟩ := h
    have hbody : a.mapped function = body := by simp only [mapped, hf]
    rw [below_of_calls (.type .mapUnion) hc, Operation.parts, ← hbody]
    rfl
  | rawTypeOf subject => exact below_of_calls (.type .rawTypeOf) h
  | templateTypeOf subject place =>
    obtain ⟨literal, hc, -⟩ := h
    exact below_of_calls (.type .templateTypeOf) hc

theorem Tests.below_eq {condition : Condition} (h : a.Tests names id condition) :
    a.below names id = condition.parts := by
  cases condition with
  | eq left right => exact below_of_calls (.predicate .eq) h
  | sub lower upper => exact below_of_calls (.predicate .sub) h
  | isTemplatized subject => exact below_of_calls (.predicate .isTemplatized) h
  | isUnknown subject => exact below_of_calls (.predicate .isUnknown) h

/-- A well-formed expression without choices and without functions: each node of it is read as an
operation that evaluates all that is below it. -/
inductive Straight (a : Arena) (names : NameTable) : NodeId → Prop where
  | intro {id op} : a.Asks names id op → op.isSelective = false →
      (∀ part ∈ op.parts, Straight a names part) → Straight a names id

/-- Nothing but well-formed nodes in type position can be come to in such an expression. -/
theorem Straight.of_within {root : NodeId} (h : a.Straight names root) {place : Position}
    (hid : a.Within names root place id) : place = .type ∧ a.Straight names id := by
  induction hid with
  | root => exact ⟨rfl, h⟩
  | @operation id op place part _ hasks hpart ih =>
    obtain ⟨-, hstraight⟩ := ih
    cases hstraight with
    | @intro _ op' hasks' hop hparts =>
      obtain rfl : op = op' := hasks.unique hasks'
      exact ⟨hpart.eq_type hop, hparts part hpart.mem_parts⟩
  | condition _ _ _ ih => cases ih.1

end Arena

namespace Eval

variable {α β : Type} {p p' : Progress}

/-- The step does not run out of levels. -/
def Uncut (act : Eval α) : Prop := ∀ p n cut, act p ≠ .error (.error (.depthExceeded n)) cut

theorem Uncut.lockstep : Lockstep fun _ act _ => Uncut act where
  pure a := nofun
  throw e he := by
    intro p n cut h
    cases h
    exact he n rfl
  bind hact hnext := by
    intro p n cut h
    rcases bind_apply_eq_error_iff.1 h with h | ⟨a, p', -, h⟩
    · exact hact p n cut h
    · exact hnext a p' n cut h
  note miss := nofun
  ask _ := fun _ _ _ => ask_ne_error
  union ts := fun _ _ _ => build_ne_error
  applied base args := fun _ _ _ => build_ne_error

theorem Uncut.ofExcept_bind {r : Except Abort α} {next : α → Eval β}
    (hr : ∀ e, r = .error e → ∀ n, e ≠ .error (.depthExceeded n))
    (hn : ∀ a, r = .ok a → Uncut (next a)) : Uncut (Eval.ofExcept r >>= next) := by
  cases r with
  | ok a => exact hn a rfl
  | error e => exact lockstep.throw e (hr e rfl)

/-- If a list is gone through to its end, each of its elements succeeds. -/
theorem exists_of_mapM {act : α → Eval β} {as : List α} {bs : List β}
    (h : as.mapM act p = .ok bs p') : ∀ a ∈ as, ∃ q b q', act a q = .ok b q' := by
  induction as generalizing p bs p' with
  | nil => simp
  | cons a as ih =>
    rw [List.mapM_cons] at h
    obtain ⟨b, p₁, hb, h⟩ := bind_apply_eq_ok_iff.1 h
    obtain ⟨bs, p₂, hbs, -⟩ := bind_apply_eq_ok_iff.1 h
    exact List.forall_mem_cons.2 ⟨⟨p, b, p₁, hb⟩, ih hbs⟩

end Eval

/-- If the operation is not selective it succeeds only if all its parts do. -/
theorem Operation.exists_of_eval {typeOf : Scope → NodeId → Eval TypeId}
    {holds : Scope → NodeId → Eval Bool} {declared? : Name → Option TypeId} {scope : Scope}
    {op : Operation} {p p' : Progress} {t : TypeId} (hop : op.isSelective = false)
    (h : op.eval typeOf declared? holds scope p = .ok t p') :
    ∀ part ∈ op.parts, ∃ q u q', typeOf scope part q = .ok u q' := by
  cases op with
  | var | empty | all | unknown => simp [parts]
  | cond | mapUnion => cases hop
  | named name args =>
    obtain ⟨ts, p₁, hts, -⟩ := bind_apply_eq_ok_iff.1 h
    exact Eval.exists_of_mapM hts
  | union operands =>
    obtain ⟨ts, p₁, hts, -⟩ := bind_apply_eq_ok_iff.1 h
    exact Eval.exists_of_mapM hts
  | rawTypeOf subject =>
    obtain ⟨u, p₁, hu, -⟩ := bind_apply_eq_ok_iff.1 h
    simpa [parts] using ⟨p, u, p₁, hu⟩
  | templateTypeOf subject place =>
    obtain ⟨u, p₁, hu, -⟩ := bind_apply_eq_ok_iff.1 h
    simpa [parts] using ⟨p, u, p₁, hu⟩

namespace Context

variable {cx : Context} {scope : Scope} {root id : NodeId} {s : Store}

/-- With as many levels as a node is high its evaluation does not run out of them. -/
theorem typeAt_and_holdsAt_uncut (hacyclic : cx.arena.Acyclic) (room : Nat) :
    (∀ scope id, cx.arena.height cx.names id ≤ room → (cx.typeAt room scope id).Uncut) ∧
      ∀ scope id, cx.arena.height cx.names id ≤ room → (cx.holdsAt room scope id).Uncut := by
  have hlock := Eval.Uncut.lockstep
  induction room with
  | zero =>
    have hpos (id : NodeId) : ¬cx.arena.height cx.names id ≤ 0 := Nat.not_le.2 Arena.height_pos
    exact ⟨fun _ id h => absurd h (hpos id), fun _ id h => absurd h (hpos id)⟩
  | succ room ih =>
    obtain ⟨iht, ihh⟩ := ih
    constructor
    · intro scope id hheight
      have hbelow := hacyclic.height_le_succ_iff.1 hheight
      have hread (e) (he : cx.arena.Refuses cx.names .type id e) := he.ne_depthExceeded
      refine Eval.Uncut.ofExcept_bind hread fun op hop => ?_
      have hasks : cx.arena.Asks cx.names id op := Arena.operation_iff.1 hop
      have hpart {place part} (hp : op.Part place part) : cx.arena.height cx.names part ≤ room :=
        hbelow part (hasks.below_eq ▸ hp.mem_parts)
      exact hlock.operation_of_parts (fun _ part hp => iht _ part (hpart hp))
        fun part hp => ihh scope part (hpart hp)
    · intro scope id hheight
      have hbelow := hacyclic.height_le_succ_iff.1 hheight
      have hread (e) (he : cx.arena.Refuses cx.names .condition id e) := he.ne_depthExceeded
      refine Eval.Uncut.ofExcept_bind hread fun condition hcondition => ?_
      have htests : cx.arena.Tests cx.names id condition := Arena.condition_iff.1 hcondition
      exact hlock.condition_of_parts fun part hp => iht scope part (hbelow part (htests.below_eq ▸ hp))

/-- An evaluation in which nothing is passed over succeeds only with as many levels as the node is
high. -/
theorem height_le_of_typeAt (hacyclic : cx.arena.Acyclic) {room : Nat} {p p' : Progress} {t : TypeId}
    (hid : cx.arena.Straight cx.names id) (h : cx.typeAt room scope id p = .ok t p') :
    cx.arena.height cx.names id ≤ room := by
  induction room generalizing id p t p' with
  | zero => cases h
  | succ room ih =>
    cases hid with
    | @intro _ op hasks hop hparts =>
      rw [typeAt, Arena.operation_iff.2 hasks] at h
      have heval : op.eval (cx.typeAt room) cx.declared? (cx.holdsAt room) scope p = .ok t p' := h
      refine hacyclic.height_le_succ_iff.2 fun part hpart => ?_
      rw [hasks.below_eq] at hpart
      obtain ⟨q, u, q', hu⟩ := Operation.exists_of_eval hop heval part hpart
      exact ih (hparts part hpart) hu

theorem evaluate_uncut (hacyclic : cx.arena.Acyclic)
    (hlimit : cx.arena.height cx.names root ≤ cx.limit.max) (n : Nat) :
    (cx.evaluate scope root s).1 ≠ .error (.error (.depthExceeded n)) := by
  have huncut := (typeAt_and_holdsAt_uncut hacyclic (cx.limit.room 0)).1 scope root hlimit
  unfold evaluate
  cases hr : cx.typeAt (cx.limit.room 0) scope root ⟨s, []⟩ with
  | ok t p => exact nofun
  | error e p =>
    intro he
    cases he
    exact huncut ⟨s, []⟩ n p hr

theorem height_le_of_evaluate (hacyclic : cx.arena.Acyclic) {e : Evaluation}
    (hroot : cx.arena.Straight cx.names root) (he : (cx.evaluate scope root s).1 = .ok e) :
    cx.arena.height cx.names root ≤ cx.limit.max := by
  unfold evaluate at he
  cases hr : cx.typeAt (cx.limit.room 0) scope root ⟨s, []⟩ with
  | ok t p => exact height_le_of_typeAt hacyclic hroot hr
  | error e p =>
    rw [hr] at he
    cases he

/-- Nothing but the limit or a full store keeps a well-formed expression without choices and functions
from having a type. -/
theorem evaluate_of_straight (hwf : s.WellFormed) (hd : s.Holds cx.declared?)
    (hs : s.Holds scope.lookup?) (hroot : cx.arena.Straight cx.names root)
    (hroom : (cx.evaluate scope root s).2.size < Store.capacity) :
    (∃ e, (cx.evaluate scope root s).1 = .ok e) ∨
      (cx.evaluate scope root s).1 = .error (.error (.depthExceeded cx.limit.max)) := by
  have hends := evaluate_ends hwf hd hs root
  generalize cx.evaluate scope root s = r at hroom hends ⊢
  obtain ⟨outcome, s'⟩ := r
  cases outcome with
  | ok e => exact .inl ⟨e, rfl⟩
  | error e =>
    rcases hends with (hlimit | ⟨place, id, hid, hrefuses⟩) | ⟨-, hfull⟩
    · exact .inr (congrArg Except.error hlimit)
    · obtain ⟨rfl, hstraight⟩ := hroot.of_within hid
      cases hstraight with
      | intro hasks => cases (Arena.operation_iff.2 hasks).symm.trans hrefuses
    · exact absurd hroom (Nat.not_lt.2 hfull)

/-- With a limit that is not below the height of the root, an evaluation in an arena without cycles is
never cut off. The root is no higher than its place allows if nodes refer to earlier nodes only, as
they do in every arena that is built node by node. A well-formed expression without choices and
functions has a type exactly if the limit is not below its height. -/
theorem evaluate_height (hacyclic : cx.arena.Acyclic) (h : s.Reachable)
    (hd : s.Holds cx.declared?) (hs : s.Holds scope.lookup?) :
    (cx.arena.height cx.names root ≤ cx.limit.max →
      ∀ n, (cx.evaluate scope root s).1 ≠ .error (.error (.depthExceeded n))) ∧
    (cx.arena.Built → cx.arena.Ascending) ∧
    (cx.arena.Ascending → cx.arena.height cx.names root ≤ root.index + 1) ∧
    (cx.arena.Straight cx.names root → (cx.evaluate scope root s).2.size < Store.capacity →
      if cx.arena.height cx.names root ≤ cx.limit.max
      then ∃ e, (cx.evaluate scope root s).1 = .ok e
      else (cx.evaluate scope root s).1 = .error (.error (.depthExceeded cx.limit.max))) := by
  refine ⟨evaluate_uncut hacyclic, Arena.Built.ascending, fun hascending => ?_, ?_⟩
  · exact hascending.height_le cx.names root
  · intro hroot hroom
    have hends := evaluate_of_straight h.wellFormed hd hs hroot hroom
    split
    · rename_i hlimit
      exact hends.resolve_right (evaluate_uncut hacyclic hlimit cx.limit.max)
    · rename_i hlimit
      refine hends.resolve_left ?_
      rintro ⟨e, he⟩
      exact hlimit (height_le_of_evaluate hacyclic hroot he)

/-- `union(type('T', rawTypeOf(x)), x)`, where the variable is shared and `T` is not declared. -/
def stacked (limit : Nat) : Context where
  names := .new .byScalars
  arena := ⟨#[.var ⟨0, 3⟩, .str ⟨1, 1⟩, .call ⟨1, 0⟩ ⟨0, 1⟩, .call ⟨2, 0⟩ ⟨1, 2⟩, .call ⟨9, 0⟩ ⟨3, 2⟩],
    #[⟨0⟩, ⟨1⟩, ⟨2⟩, ⟨3⟩, ⟨0⟩]⟩
  declared? _ := none
  limit := ⟨limit⟩

theorem stacked_built (limit : Nat) : (stacked limit).arena.Built := by
  have hvar := @Arena.Built.make _ _ _ (.var ⟨0, 3⟩) .empty (by decide) rfl
  have hstr := @Arena.Built.make _ _ _ (.str ⟨1, 1⟩) hvar (by decide) rfl
  have hraw := @Arena.Built.make _ _ _ (.call ⟨1, 0⟩ [⟨0⟩]) hstr (by decide) rfl
  have htype := @Arena.Built.make _ _ _ (.call ⟨2, 0⟩ [⟨1⟩, ⟨2⟩]) hraw (by decide) rfl
  exact @Arena.Built.make _ _ _ (.call ⟨9, 0⟩ [⟨3⟩, ⟨0⟩]) htype (by decide) rfl

theorem stacked_straight (limit : Nat) :
    (stacked limit).arena.Straight (stacked limit).names ⟨4⟩ := by
  have hvar : (stacked limit).arena.Straight (stacked limit).names ⟨0⟩ := by
    refine @Arena.Straight.intro _ _ _ (.var ⟨0, 3⟩) rfl rfl ?_
    simp [Operation.parts]
  have hraw : (stacked limit).arena.Straight (stacked limit).names ⟨2⟩ := by
    refine @Arena.Straight.intro _ _ _ (.rawTypeOf ⟨0⟩) ⟨_, _, rfl, rfl, rfl⟩ rfl ?_
    simpa [Operation.parts] using hvar
  have htype : (stacked limit).arena.Straight (stacked limit).names ⟨3⟩ := by
    refine @Arena.Straight.intro _ _ _ (.named ⟨1, 1⟩ [⟨2⟩]) ⟨⟨1⟩, ⟨_, _, rfl, rfl, rfl⟩, rfl⟩ rfl ?_
    simpa [Operation.parts] using hraw
  refine @Arena.Straight.intro _ _ _ (.union [⟨3⟩, ⟨0⟩]) ⟨⟨_, _, rfl, rfl, rfl⟩, by decide⟩ rfl ?_
  simpa [Operation.parts] using ⟨htype, hvar⟩

/-- The root stands on four levels: four are enough, and three are not. -/
theorem stacked_evaluate_height :
    (stacked 4).arena.height (stacked 4).names ⟨4⟩ = 4 ∧
      (∃ e, ((stacked 4).evaluate .empty ⟨4⟩ .new).1 = .ok e) ∧
      ((stacked 3).evaluate .empty ⟨4⟩ .new).1 = .error (.error (.depthExceeded 3)) := by
  have hacyclic (limit : Nat) : (stacked limit).arena.Acyclic := (stacked_built limit).ascending.acyclic
  have hends (limit : Nat) := (@evaluate_height (stacked limit) .empty ⟨4⟩ .new (hacyclic limit)
    ⟨[], rfl⟩ nofun (Store.holds_empty _)).2.2.2 (stacked_straight limit)
  have hheight : (stacked 4).arena.height (stacked 4).names ⟨4⟩ = 4 := rfl
  exact ⟨hheight, hends 4 (by decide), hends 3 (by decide)⟩

end Context

end TypeCalculus
