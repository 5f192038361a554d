import TypeCalculus.Proofs.History

/-!
The parameters of functions may be renamed. Two expressions that differ in nothing but the names of
parameters, and of the variables these bind, have one and the same evaluation.
-/

namespace TypeCalculus

/-- Below pairs of parameters, the innermost first, two variables correspond if the same pair binds
them both, or if no pair binds either of them and they are the same. -/
inductive Corresponds : List (Name × Name) → Name → Name → Prop where
  | free {x} : Corresponds [] x x
  | bound {ps x y} : Corresponds ((x, y) :: ps) x y
  | outer {ps x y param param'} : param ≠ x → param' ≠ y → Corresponds ps x y →
      Corresponds ((param, param') :: ps) x y

/-- Two scopes inside pairs of functions: each pair binds both its parameters to the same type. -/
inductive Scope.Inside (base base' : Scope) : List (Name × Name) → Scope → Scope → Prop where
  | base : Inside base base' [] base base'
  | function {ps scope scope' param param'} (t : TypeId) : Inside base base' ps scope scope' →
      Inside base base' ((param, param') :: ps) (scope.extend [(param, t)])
        (scope'.extend [(param', t)])

namespace Scope.Inside

variable {base base' scope scope' : Scope} {ps : List (Name × Name)} {x y : Name}

theorem lookup?_left (h : Inside base base' ps scope scope') (hx : x ∉ ps.map Prod.fst) :
    scope.lookup? x = base.lookup? x := by
  induction h with
  | base => rfl
  | function t _ ih =>
    rw [List.map_cons, List.mem_cons, not_or] at hx
    rw [lookup?_extend_single, if_neg (Ne.symm hx.1), ih hx.2]

theorem lookup?_right (h : Inside base base' ps scope scope') (hy : y ∉ ps.map Prod.snd) :
    scope'.lookup? y = base'.lookup? y := by
  induction h with
  | base => rfl
  | function t _ ih =>
    rw [List.map_cons, List.mem_cons, not_or] at hy
    rw [lookup?_extend_single, if_neg (Ne.symm hy.1), ih hy.2]

/-- Variables that correspond are bound to one type, or they are one variable from outside. -/
theorem of_corresponds (h : Inside base base' ps scope scope') (hxy : Corresponds ps x y) :
    (∃ t, scope.lookup? x = some t ∧ scope'.lookup? y = some t) ∨
      x = y ∧ x ∉ ps.map Prod.fst ∧ y ∉ ps.map Prod.snd := by
  induction h with
  | base =>
    cases hxy with
    | free => exact .inr ⟨rfl, List.not_mem_nil, List.not_mem_nil⟩
  | function t _ ih =>
    cases hxy with
    | bound =>
      left
      refine ⟨t, ?_, ?_⟩
      · rw [lookup?_extend_single, if_pos rfl]
      · rw [lookup?_extend_single, if_pos rfl]
    | outer hx hy hxy =>
      rw [lookup?_extend_single, lookup?_extend_single, if_neg hx, if_neg hy]
      rcases ih hxy with hbound | ⟨rfl, hx', hy'⟩
      · exact .inl hbound
      · refine .inr ⟨rfl, ?_, ?_⟩
        · simpa using ⟨Ne.symm hx, by simpa using hx'⟩
        · simpa using ⟨Ne.symm hy, by simpa using hy'⟩

end Scope.Inside

namespace Context

/-- Two nodes in the same place of two expressions of one form, each in the scope inside the
functions that it stands in. -/
def Facing (cx : Context) (Var : List (Name × Name) → Name → Name → Prop)
    (Swap : List (Name × Name) → NodeId → NodeId → Prop) (base base' : Scope) (place : Position)
    (scope : Scope) (id : NodeId) (scope' : Scope) (id' : NodeId) : Prop :=
  ∃ ps, Scope.Inside base base' ps scope scope' ∧
    cx.arena.Parallel cx.names Var Swap ps (some place) id id'

variable {cx : Context} {Var : List (Name × Name) → Name → Name → Prop}
  {Swap : List (Name × Name) → NodeId → NodeId → Prop} {base base' : Scope}
  {R : ∀ α : Type, Eval α → Eval α → Prop}

theorem ties_implies (h : Eval.Lockstep R)
    (hvar : ∀ {ps scope scope' x y}, Scope.Inside base base' ps scope scope' → Var ps x y →
      scope.lookup? x = scope'.lookup? y ∧ (scope.lookup? x = none → x = y))
    {ps : List (Name × Name)} {scope scope' : Scope} (hs : Scope.Inside base base' ps scope scope') :
    (cx.arena.ties cx.names Var Swap ps).Implies
      (Eval.ties R (cx.Facing Var Swap base base') cx.declared? cx.declared? scope scope') where
  vars hxy := by
    obtain ⟨hlookup, hfree⟩ := hvar hs hxy
    exact h.resolved_of_eq hlookup fun hnone => congrArg Miss.unboundVariable (hfree hnone)
  literal _ := h.resolved _ _
  nodes hid := ⟨ps, hs, hid⟩
  functions hbody t := ⟨_, .function t hs, hbody⟩

/-- Expressions of one form pair their nodes, if variables that answer each other are looked up alike
and parts that are swapped have related evaluations. -/
theorem pairing_of_facing (h : Eval.Lockstep R) {bound : Nat}
    (hvar : ∀ {ps scope scope' x y}, Scope.Inside base base' ps scope scope' → Var ps x y →
      scope.lookup? x = scope'.lookup? y ∧ (scope.lookup? x = none → x = y))
    (hswap : ∀ {ps scope scope' id id'}, Scope.Inside base base' ps scope scope' → Swap ps id id' →
      ∀ room room', room < bound →
        R TypeId (cx.typeAt (room + 1) scope id) (cx.typeAt (room' + 1) scope' id')) :
    Eval.Pairing R cx cx (cx.Facing Var Swap base base') bound where
  type := by
    rintro scope id scope' id' ⟨ps, hs, hid⟩
    rcases hid.operation_concur with hswapped | hop
    · exact .inl (hswap hs hswapped)
    · exact .inr (hop.imp fun _ _ => Operation.Resembles.imp (ties_implies h hvar hs))
  condition := by
    rintro scope id scope' id' ⟨ps, hs, hid⟩
    exact hid.condition_concur.imp fun _ _ => Condition.Resembles.imp (ties_implies h hvar hs)

end Context

/-- The two expressions differ only in the names of parameters and of the variables they bind. -/
def Arena.Renames (a : Arena) (names : NameTable) (root root' : NodeId) : Prop :=
  a.Parallel names Corresponds (fun _ _ _ => False) [] (some .type) root root'

theorem Context.typeAt_renames {cx : Context} {root root' : NodeId}
    (h : cx.arena.Renames cx.names root root') (room : Nat) (scope : Scope) :
    cx.typeAt room scope root = cx.typeAt room scope root' := by
  have hvar {ps scope₁ scope₂ x y} (hs : Scope.Inside scope scope ps scope₁ scope₂)
      (hxy : Corresponds ps x y) :
      scope₁.lookup? x = scope₂.lookup? y ∧ (scope₁.lookup? x = none → x = y) := by
    rcases hs.of_corresponds hxy with ⟨t, hx, hy⟩ | ⟨rfl, hx, hy⟩
    · rw [hx, hy]
      exact ⟨rfl, nofun⟩
    · rw [hs.lookup?_left hx, hs.lookup?_right hy]
      exact ⟨rfl, fun _ => rfl⟩
  have hpairing : Eval.Pairing (fun _ act act' => act = act') cx cx
      (cx.Facing Corresponds (fun _ _ _ => False) scope scope) room :=
    pairing_of_facing Eval.Lockstep.eq hvar fun _ => False.elim
  exact Eval.Lockstep.eq.typeAt_of_pairing hpairing (fun _ => rfl) ⟨[], .base, h⟩

/-- An expression and one that differs only in the names of parameters have the same evaluation. -/
theorem Context.evaluate_renames (cx : Context) {root root' : NodeId}
    (h : cx.arena.Renames cx.names root root') (scope : Scope) (s : Store) :
    cx.evaluate scope root s = cx.evaluate scope root' s := by
  unfold evaluate
  rw [typeAt_renames h]

theorem Arena.Parallel.call_pair {a : Arena} {names : NameTable}
    {Var : List (Name × Name) → Name → Name → Prop} {Swap : List (Name × Name) → NodeId → NodeId → Prop}
    {ps : List (Name × Name)} {role : Option Position} {id id' left left' right right' : NodeId}
    {callee : Name} {range range' : OperandRange} {op : Operator}
    (hn : a.node id = .ok (.call callee range)) (hn' : a.node id' = .ok (.call callee range'))
    (hs : a.slice range = .ok [left, right]) (hs' : a.slice range' = .ok [left', right'])
    (hop : names.operator callee = .ok op) (hleft : a.Parallel names Var Swap ps (op.role 0) left left')
    (hright : a.Parallel names Var Swap ps (op.role 1) right right') :
    a.Parallel names Var Swap ps role id id' := by
  refine .call [(left, left'), (right, right')] hn hn' hs hs' fun op' hop' _ i operand hi => ?_
  cases hop.symm.trans hop'
  match i with
  | 0 =>
    cases hi
    exact hleft
  | 1 =>
    cases hi
    exact hright
  | i + 2 => cases hi

/-- `mapunion(x, (y) => mapunion(x, (z) => union(y, z)))` at node 7, and the same with `y` and `z`
exchanged at node 12. -/
def Arena.exchanged : Arena :=
  ⟨#[.var ⟨0, 1⟩, .var ⟨0, 2⟩, .var ⟨0, 3⟩, .call ⟨9, 0⟩ ⟨0, 2⟩, .function ⟨0, 3⟩ ⟨3⟩,
      .call ⟨7, 0⟩ ⟨2, 2⟩, .function ⟨0, 2⟩ ⟨5⟩, .call ⟨7, 0⟩ ⟨4, 2⟩, .call ⟨9, 0⟩ ⟨6, 2⟩,
      .function ⟨0, 2⟩ ⟨8⟩, .call ⟨7, 0⟩ ⟨8, 2⟩, .function ⟨0, 3⟩ ⟨10⟩, .call ⟨7, 0⟩ ⟨10, 2⟩],
    #[⟨1⟩, ⟨2⟩, ⟨0⟩, ⟨4⟩, ⟨0⟩, ⟨6⟩, ⟨2⟩, ⟨1⟩, ⟨0⟩, ⟨9⟩, ⟨0⟩, ⟨11⟩]⟩

theorem Arena.exchanged_renames : exchanged.Renames (.new .byScalars) ⟨7⟩ ⟨12⟩ := by
  have hfree : Corresponds [] ⟨0, 1⟩ ⟨0, 1⟩ := .free
  have hx : Corresponds [(⟨0, 2⟩, ⟨0, 3⟩)] ⟨0, 1⟩ ⟨0, 1⟩ := .outer (by decide) (by decide) .free
  have hy : Corresponds [(⟨0, 3⟩, ⟨0, 2⟩), (⟨0, 2⟩, ⟨0, 3⟩)] ⟨0, 2⟩ ⟨0, 3⟩ :=
    .outer (by decide) (by decide) .bound
  have hz : Corresponds [(⟨0, 3⟩, ⟨0, 2⟩), (⟨0, 2⟩, ⟨0, 3⟩)] ⟨0, 3⟩ ⟨0, 2⟩ := .bound
  -- From the root down to the union under both functions.
  refine .call_pair rfl rfl rfl rfl rfl (.var rfl rfl fun _ => hfree) ?_
  refine .function rfl rfl fun _ => ?_
  refine .call_pair rfl rfl rfl rfl rfl (.var rfl rfl fun _ => hx) ?_
  refine .function rfl rfl fun _ => ?_
  exact .call_pair rfl rfl rfl rfl rfl (.var rfl rfl fun _ => hy) (.var rfl rfl fun _ => hz)

theorem Context.exchanged_evaluate_renames :
    (evaluate ⟨.new .byScalars, .exchanged, fun _ => none, ⟨4⟩⟩ (.ofBindings [(⟨0, 1⟩, ⟨5⟩)]) ⟨7⟩
        .sampleTypes).1 = .ok ⟨⟨5⟩, []⟩ ∧
      evaluate ⟨.new .byScalars, .exchanged, fun _ => none, ⟨4⟩⟩ (.ofBindings [(⟨0, 1⟩, ⟨5⟩)]) ⟨7⟩
          .sampleTypes =
        evaluate ⟨.new .byScalars, .exchanged, fun _ => none, ⟨4⟩⟩ (.ofBindings [(⟨0, 1⟩, ⟨5⟩)]) ⟨12⟩
          .sampleTypes :=
  ⟨rfl, evaluate_renames ⟨.new .byScalars, .exchanged, fun _ => none, ⟨4⟩⟩ Arena.exchanged_renames _ _⟩

end TypeCalculus
