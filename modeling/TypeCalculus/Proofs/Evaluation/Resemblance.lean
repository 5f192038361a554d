import Mathlib.Data.List.Forall2
import TypeCalculus.Proofs.Evaluation.Reach

/-!
Two nodes side by side. Nodes of one form are read alike: both readings fail with the same error, or
they give two operations of one form. What is said of two expressions that differ only in their
variables, or in some of their parts, comes down to what is said of these.
-/

namespace TypeCalculus

/-- Both fail with the same error, or both succeed with results that are related. -/
inductive Concur {α β : Type} (Q : α → β → Prop) : Except Abort α → Except Abort β → Prop where
  | ok {a b} : Q a b → Concur Q (.ok a) (.ok b)
  | error (e : Abort) : Concur Q (.error e) (.error e)

namespace Concur

variable {α β γ δ : Type} {Q Q₁ : α → β → Prop} {x : Except Abort α} {y : Except Abort β}

theorem of_self {Q : α → α → Prop} (h : ∀ a, x = .ok a → Q a a) : Concur Q x x := by
  cases x with
  | ok a => exact .ok (h a rfl)
  | error e => exact .error e

theorem imp (h : Concur Q x y) (hi : ∀ a b, Q a b → Q₁ a b) : Concur Q₁ x y := by
  cases h with
  | ok hab => exact .ok (hi _ _ hab)
  | error e => exact .error e

theorem bind (h : Concur Q x y) {T : γ → δ → Prop} {f : α → Except Abort γ}
    {g : β → Except Abort δ} (hf : ∀ a b, Q a b → Concur T (f a) (g b)) :
    Concur T (x >>= f) (y >>= g) := by
  cases h with
  | ok hab => exact hf _ _ hab
  | error e => exact .error e

end Concur

/-- What two operations of one form have to have in common: their variables, the name of the type
they ask for, the nodes in the same places, and the functions they map. -/
structure Ties where
  vars : Name → Name → Prop
  literal : Name → Prop
  nodes : Position → NodeId → NodeId → Prop
  functions : Name → NodeId → Name → NodeId → Prop

/-- Two operations of one form. -/
inductive Operation.Resembles (T : Ties) : Operation → Operation → Prop where
  | var {x y} : T.vars x y → Resembles T (.var x) (.var y)
  | empty : Resembles T .empty .empty
  | all : Resembles T .all .all
  | unknown : Resembles T .unknown .unknown
  | named {name args args'} : T.literal name → List.Forall₂ (T.nodes .type) args args' →
      Resembles T (.named name args) (.named name args')
  | union {operands operands'} : List.Forall₂ (T.nodes .type) operands operands' →
      Resembles T (.union operands) (.union operands')
  | cond {test test' yes yes' no no'} : T.nodes .condition test test' → T.nodes .type yes yes' →
      T.nodes .type no no' → Resembles T (.cond test yes no) (.cond test' yes' no')
  | mapUnion {source source' param param' body body'} : T.nodes .type source source' →
      T.functions param body param' body' →
      Resembles T (.mapUnion source param body) (.mapUnion source' param' body')
  | rawTypeOf {subject subject'} : T.nodes .type subject subject' →
      Resembles T (.rawTypeOf subject) (.rawTypeOf subject')
  | templateTypeOf {subject subject' place} : T.nodes .type subject subject' →
      Resembles T (.templateTypeOf subject place) (.templateTypeOf subject' place)

inductive Condition.Resembles (T : Ties) : Condition → Condition → Prop where
  | eq {left left' right right'} : T.nodes .type left left' → T.nodes .type right right' →
      Resembles T (.eq left right) (.eq left' right')
  | sub {lower lower' upper upper'} : T.nodes .type lower lower' → T.nodes .type upper upper' →
      Resembles T (.sub lower upper) (.sub lower' upper')
  | isTemplatized {subject subject'} : T.nodes .type subject subject' →
      Resembles T (.isTemplatized subject) (.isTemplatized subject')
  | isUnknown {subject subject'} : T.nodes .type subject subject' →
      Resembles T (.isUnknown subject) (.isUnknown subject')

/-- Whatever the one ties the other ties as well. -/
structure Ties.Implies (T U : Ties) : Prop where
  vars : ∀ {x y}, T.vars x y → U.vars x y
  literal : ∀ {name}, T.literal name → U.literal name
  nodes : ∀ {place id id'}, T.nodes place id id' → U.nodes place id id'
  functions : ∀ {param body param' body'}, T.functions param body param' body' →
    U.functions param body param' body'

section Ties

variable {T U : Ties}

theorem Operation.Resembles.imp (hi : T.Implies U) {op op' : Operation} (h : op.Resembles T op') :
    op.Resembles U op' := by
  cases h with
  | var hv => exact .var (hi.vars hv)
  | empty => exact .empty
  | all => exact .all
  | unknown => exact .unknown
  | named hl hs => exact .named (hi.literal hl) (hs.imp fun _ _ => hi.nodes)
  | union hs => exact .union (hs.imp fun _ _ => hi.nodes)
  | cond ht hy hn => exact .cond (hi.nodes ht) (hi.nodes hy) (hi.nodes hn)
  | mapUnion hs hf => exact .mapUnion (hi.nodes hs) (hi.functions hf)
  | rawTypeOf hs => exact .rawTypeOf (hi.nodes hs)
  | templateTypeOf hs => exact .templateTypeOf (hi.nodes hs)

theorem Condition.Resembles.imp (hi : T.Implies U) {condition condition' : Condition}
    (h : condition.Resembles T condition') : condition.Resembles U condition' := by
  cases h with
  | eq hl hr => exact .eq (hi.nodes hl) (hi.nodes hr)
  | sub hl hu => exact .sub (hi.nodes hl) (hi.nodes hu)
  | isTemplatized hs => exact .isTemplatized (hi.nodes hs)
  | isUnknown hs => exact .isUnknown (hi.nodes hs)

end Ties

namespace Arena

/-- An operation resembles itself if its names, its operands and its function are tied to themselves. -/
theorem Asks.resembles {a : Arena} {names : NameTable} {id : NodeId} {op : Operation} {T : Ties}
    (h : a.Asks names id op) (hv : ∀ x, a.node id = .ok (.var x) → T.vars x x)
    (hl : ∀ name args, op = .named name args → T.literal name)
    (hn : ∀ {text operands place part}, a.Calls names id text operands → part ∈ operands →
      op.Part place part → T.nodes place part part)
    (hf : ∀ {text operands function param body}, a.Calls names id text operands →
      function ∈ operands → a.node function = .ok (.function param body) →
      op.Part .type body → T.functions param body param body) : op.Resembles T op := by
  cases op with
  | var x => exact .var (hv x h)
  | empty => exact .empty
  | all => exact .all
  | unknown => exact .unknown
  | named name args =>
    obtain ⟨literal, hc, -⟩ := h
    refine .named (hl name args rfl) (List.forall₂_same.2 fun arg hmem => ?_)
    exact hn hc (List.mem_cons_of_mem literal hmem) (.arg hmem)
  | union operands =>
    exact .union (List.forall₂_same.2 fun operand hmem => hn h.1 hmem (.member hmem))
  | cond test yes no =>
    exact .cond (hn h (by simp) .test) (hn h (by simp) .yes) (hn h (by simp) .no)
  | mapUnion source param body =>
    obtain ⟨function, hc, hfunction⟩ := h
    exact .mapUnion (hn hc (by simp) .source) (hf hc (by simp) hfunction .body)
  | rawTypeOf subject => exact .rawTypeOf (hn h (by simp) .raw)
  | templateTypeOf subject place =>
    obtain ⟨literal, hc, -⟩ := h
    exact .templateTypeOf (hn hc (by simp) .template)

theorem Tests.resembles {a : Arena} {names : NameTable} {id : NodeId} {condition : Condition}
    {T : Ties} (h : a.Tests names id condition)
    (hn : ∀ {text part}, a.Calls names id text condition.parts → part ∈ condition.parts →
      T.nodes .type part part) : condition.Resembles T condition := by
  obtain ⟨text, hc⟩ := h.calls
  cases condition with
  | eq left right => exact .eq (hn hc (by simp [Condition.parts])) (hn hc (by simp [Condition.parts]))
  | sub lower upper => exact .sub (hn hc (by simp [Condition.parts])) (hn hc (by simp [Condition.parts]))
  | isTemplatized subject => exact .isTemplatized (hn hc (by simp [Condition.parts]))
  | isUnknown subject => exact .isUnknown (hn hc (by simp [Condition.parts]))

end Arena

/-- What an operator reads its operand at place `i` as, counted from 0. Literals and functions are
not read as anything. -/
def Operator.role : Operator → Nat → Option Position
  | .type .type, 0 | .type .mapUnion, 1 | .type .templateTypeOf, 1 => none
  | .type .cond, 0 => some .condition
  | _, _ => some .type

namespace Arena

/-- Two expressions of one form, except where `Swap` lets one take the place of the other. Each
stands below a list of parameters, the innermost first, and `Var` says which variables answer each
other below them. Where nothing is evaluated nothing has to answer anything: not the variables
outside of type position, nor the operands of a call with a wrong number of them. -/
inductive Parallel (a : Arena) (names : NameTable) (Var : List (Name × Name) → Name → Name → Prop)
    (Swap : List (Name × Name) → NodeId → NodeId → Prop) :
    List (Name × Name) → Option Position → NodeId → NodeId → Prop where
  | swap {ps id id'} : Swap ps id id' → Parallel a names Var Swap ps (some .type) id id'
  | var {ps role id id' x y} : a.node id = .ok (.var x) → a.node id' = .ok (.var y) →
      (role = some .type → Var ps x y) → Parallel a names Var Swap ps role id id'
  | str {ps role id id' text} : a.node id = .ok (.str text) → a.node id' = .ok (.str text) →
      Parallel a names Var Swap ps role id id'
  | int {ps role id id' value} : a.node id = .ok (.int value) → a.node id' = .ok (.int value) →
      Parallel a names Var Swap ps role id id'
  | call {ps role id id' callee range range'} (operands : List (NodeId × NodeId)) :
      a.node id = .ok (.call callee range) → a.node id' = .ok (.call callee range') →
      a.slice range = .ok (operands.map Prod.fst) → a.slice range' = .ok (operands.map Prod.snd) →
      (∀ op, names.operator callee = .ok op → op.arity.accepts operands.length = true →
        ∀ i operand, operands[i]? = some operand →
          Parallel a names Var Swap ps (op.role i) operand.1 operand.2) →
      Parallel a names Var Swap ps role id id'
  | function {ps role id id' param param' body body'} :
      a.node id = .ok (.function param body) → a.node id' = .ok (.function param' body') →
      (role = none →
        Parallel a names Var Swap ((param, param') :: ps) (some .type) body body') →
      Parallel a names Var Swap ps role id id'

/-- What ties the operations of two expressions of one form. -/
def ties (a : Arena) (names : NameTable) (Var : List (Name × Name) → Name → Name → Prop)
    (Swap : List (Name × Name) → NodeId → NodeId → Prop) (ps : List (Name × Name)) : Ties where
  vars := Var ps
  literal _ := True
  nodes place := a.Parallel names Var Swap ps (some place)
  functions param body param' body' :=
    a.Parallel names Var Swap ((param, param') :: ps) (some .type) body body'

theorem operand_concur {α : Type} {a : Arena} {id id' : NodeId} {node node' : Node} {Q : α → α → Prop}
    {op : TypeOperator} {place : Nat} {expected : NodeKind} {view : Node → Option α}
    (hn : a.node id = .ok node) (hn' : a.node id' = .ok node')
    (hview : Option.Rel Q (view node) (view node')) :
    Concur Q (a.operand op place expected view id) (a.operand op place expected view id') := by
  rw [operand, operand, read_of_node hn, read_of_node hn', ok_bind, ok_bind]
  generalize view node = value, view node' = value' at hview ⊢
  cases hview with
  | none => exact .error _
  | some hv => exact .ok hv

namespace Parallel

variable {a : Arena} {names : NameTable} {Var : List (Name × Name) → Name → Name → Prop}
  {Swap : List (Name × Name) → NodeId → NodeId → Prop} {ps : List (Name × Name)} {id id' : NodeId}

/-- An operand that is not evaluated shows the same literal on both sides, or two functions of one
form. -/
theorem exists_nodes (h : a.Parallel names Var Swap ps none id id') : ∃ node node',
    a.node id = .ok node ∧ a.node id' = .ok node' ∧ Option.Rel Eq node.text? node'.text? ∧
      Option.Rel Eq node.value? node'.value? ∧
      Option.Rel (fun f f' => (a.ties names Var Swap ps).functions f.1 f.2 f'.1 f'.2)
        node.function? node'.function? := by
  cases h with
  | var hn hn' => exact ⟨_, _, hn, hn', .none, .none, .none⟩
  | str hn hn' => exact ⟨_, _, hn, hn', .some rfl, .none, .none⟩
  | int hn hn' => exact ⟨_, _, hn, hn', .none, .some rfl, .none⟩
  | call operands hn hn' => exact ⟨_, _, hn, hn', .none, .none, .none⟩
  | function hn hn' hbody => exact ⟨_, _, hn, hn', .none, .none, .some (hbody rfl)⟩

section Operands

variable {op : Operator} {operands : List (NodeId × NodeId)} (crash : Fault)

theorem operandAt_concur {role : Option Position} {i : Nat}
    (h : ∀ operand, operands[i]? = some operand →
      a.Parallel names Var Swap ps role operand.1 operand.2) :
    Concur (a.Parallel names Var Swap ps role) (operandAt crash (operands.map Prod.fst) i)
      (operandAt crash (operands.map Prod.snd) i) := by
  unfold operandAt
  rw [List.getElem?_map, List.getElem?_map]
  cases hi : operands[i]? with
  | none => exact .error _
  | some operand => exact .ok (h operand hi)

theorem forall₂_of_getElem? {role : Option Position} (h : ∀ (i : Nat) operand,
      operands[i]? = some operand → a.Parallel names Var Swap ps role operand.1 operand.2) :
    List.Forall₂ (a.Parallel names Var Swap ps role) (operands.map Prod.fst)
      (operands.map Prod.snd) := by
  rw [List.forall₂_map_left_iff, List.forall₂_map_right_iff, List.forall₂_same]
  intro operand hmem
  obtain ⟨i, hi⟩ := List.getElem?_of_mem hmem
  exact h i operand hi

theorem operandsFrom_concur {role : Option Position} {i : Nat} (h : ∀ (j : Nat) operand,
      operands[j + i]? = some operand → a.Parallel names Var Swap ps role operand.1 operand.2) :
    Concur (List.Forall₂ (a.Parallel names Var Swap ps role))
      (operandsFrom crash (operands.map Prod.fst) i) (operandsFrom crash (operands.map Prod.snd) i) := by
  unfold operandsFrom
  rw [List.length_map, List.length_map, ← List.map_drop, ← List.map_drop]
  split
  · refine .ok (forall₂_of_getElem? fun j operand hj => h j operand ?_)
    rwa [List.getElem?_drop, Nat.add_comm] at hj
  · exact .error _

theorem ofPlaces_concur {op : TypeOperator} (h : ∀ (i : Nat) operand, operands[i]? = some operand →
      a.Parallel names Var Swap ps ((Operator.type op).role i) operand.1 operand.2) :
    Concur (Operation.Resembles (a.ties names Var Swap ps))
      (Operation.ofPlaces crash a op (operands.map Prod.fst))
      (Operation.ofPlaces crash a op (operands.map Prod.snd)) := by
  have place (i : Nat) := operandAt_concur crash (h i)
  cases op with
  | none => exact .ok .empty
  | all => exact .ok .all
  | unknown => exact .ok .unknown
  | union => exact .ok (.union (forall₂_of_getElem? h))
  | type =>
    refine (place 0).bind fun literal literal' hl => ?_
    obtain ⟨node, node', hn, hn', htext, -, -⟩ := exists_nodes hl
    refine (operand_concur hn hn' htext).bind fun name name' hname => ?_
    subst hname
    -- No operand after the literal is one that is not evaluated.
    have harg (j : Nat) operand (hj : operands[j + 1]? = some operand) :
        a.Parallel names Var Swap ps (some .type) operand.1 operand.2 := h (j + 1) operand hj
    exact (operandsFrom_concur crash harg).bind fun args args' hs => .ok (.named trivial hs)
  | cond =>
    exact (place 0).bind fun _ _ ht => (place 1).bind fun _ _ hy => (place 2).bind fun _ _ hn =>
      .ok (.cond ht hy hn)
  | mapUnion =>
    refine (place 1).bind fun function function' hf => ?_
    obtain ⟨node, node', hn, hn', -, -, hbody⟩ := exists_nodes hf
    refine (operand_concur hn hn' hbody).bind fun _ _ hbody => (place 0).bind fun _ _ hs => ?_
    exact .ok (.mapUnion hs hbody)
  | rawTypeOf => exact (place 0).bind fun _ _ hs => .ok (.rawTypeOf hs)
  | templateTypeOf =>
    refine (place 1).bind fun literal literal' hl => ?_
    obtain ⟨node, node', hn, hn', -, hvalue, -⟩ := exists_nodes hl
    refine (operand_concur hn hn' hvalue).bind fun value value' hv => (place 0).bind fun _ _ hs => ?_
    subst hv
    exact .ok (.templateTypeOf hs)

theorem conditionOfPlaces_concur {op : PredicateOperator}
    (h : ∀ (i : Nat) operand, operands[i]? = some operand →
      a.Parallel names Var Swap ps ((Operator.predicate op).role i) operand.1 operand.2) :
    Concur (Condition.Resembles (a.ties names Var Swap ps))
      (Condition.ofPlaces crash op (operands.map Prod.fst))
      (Condition.ofPlaces crash op (operands.map Prod.snd)) := by
  have place (i : Nat) := operandAt_concur crash (h i)
  cases op with
  | eq => exact (place 0).bind fun _ _ hl => (place 1).bind fun _ _ hr => .ok (.eq hl hr)
  | sub => exact (place 0).bind fun _ _ hl => (place 1).bind fun _ _ hu => .ok (.sub hl hu)
  | isTemplatized => exact (place 0).bind fun _ _ hs => .ok (.isTemplatized hs)
  | isUnknown => exact (place 0).bind fun _ _ hs => .ok (.isUnknown hs)

/-- The table of arities lets both calls pass or neither. -/
theorem guard_concur {α : Type} {Q : α → α → Prop} {op : Operator}
    {read : List NodeId → Except Abort α} (h : op.arity.accepts operands.length = true →
      Concur Q (read (operands.map Prod.fst)) (read (operands.map Prod.snd))) :
    Concur Q (op.guard (operands.map Prod.fst) read) (op.guard (operands.map Prod.snd) read) := by
  unfold Operator.guard
  rw [List.length_map, List.length_map]
  split
  · rename_i haccepts
    exact h haccepts
  · exact .error _

theorem ofCall_concur {op : TypeOperator}
    (h : (Operator.type op).arity.accepts operands.length = true → ∀ (i : Nat) operand,
      operands[i]? = some operand →
        a.Parallel names Var Swap ps ((Operator.type op).role i) operand.1 operand.2) :
    Concur (Operation.Resembles (a.ties names Var Swap ps))
      (Operation.ofCall a op (operands.map Prod.fst)) (Operation.ofCall a op (operands.map Prod.snd)) := by
  have hguard := Operation.guard_ofPlaces (.danglingOperands .empty) a op
  rw [← hguard, ← hguard]
  exact guard_concur fun haccepts => ofPlaces_concur _ (h haccepts)

theorem conditionOfCall_concur {op : PredicateOperator}
    (h : (Operator.predicate op).arity.accepts operands.length = true → ∀ (i : Nat) operand,
      operands[i]? = some operand →
        a.Parallel names Var Swap ps ((Operator.predicate op).role i) operand.1 operand.2) :
    Concur (Condition.Resembles (a.ties names Var Swap ps))
      (Condition.ofCall op (operands.map Prod.fst)) (Condition.ofCall op (operands.map Prod.snd)) := by
  have hguard := Condition.guard_ofPlaces (.danglingOperands .empty) op
  rw [← hguard, ← hguard]
  exact guard_concur fun haccepts => conditionOfPlaces_concur _ (h haccepts)

end Operands

/-- Two expressions of one form are read as operations of one form, unless they may be swapped. -/
theorem operation_concur (h : a.Parallel names Var Swap ps (some .type) id id') :
    Swap ps id id' ∨ Concur (Operation.Resembles (a.ties names Var Swap ps))
      (a.operation names id) (a.operation names id') := by
  cases h with
  | swap hs => exact .inl hs
  | var hn hn' hv =>
    right
    rw [operation, operation, read_of_node hn, read_of_node hn']
    exact .ok (.var (hv rfl))
  | str hn hn' | int hn hn' | function hn hn' =>
    right
    rw [operation, operation, read_of_node hn, read_of_node hn']
    exact .error _
  | @call _ _ _ _ callee _ _ operands hn hn' hs hs' hoperands =>
    right
    rw [operation, operation, read_of_node hn, read_of_node hn', ok_bind, ok_bind]
    dsimp only
    rw [hs, hs']
    cases hop : names.operator callee with
    | error e => exact .error e
    | ok op =>
      cases op with
      | predicate op => exact .error _
      | type op => exact ofCall_concur (hoperands _ hop)

theorem condition_concur (h : a.Parallel names Var Swap ps (some .condition) id id') :
    Concur (Condition.Resembles (a.ties names Var Swap ps))
      (a.condition names id) (a.condition names id') := by
  cases h with
  | var hn hn' | str hn hn' | int hn hn' | function hn hn' =>
    rw [Arena.condition, Arena.condition, read_of_node hn, read_of_node hn']
    exact .error _
  | @call _ _ _ _ callee _ _ operands hn hn' hs hs' hoperands =>
    rw [Arena.condition, Arena.condition, read_of_node hn, read_of_node hn', ok_bind, ok_bind]
    dsimp only
    rw [hs, hs']
    cases hop : names.operator callee with
    | error e => exact .error e
    | ok op =>
      cases op with
      | type op => exact .error _
      | predicate op => exact conditionOfCall_concur (hoperands _ hop)

end Parallel

end Arena

end TypeCalculus
