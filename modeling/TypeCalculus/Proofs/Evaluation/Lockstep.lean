import TypeCalculus.Proofs.Evaluation.Resemblance

/-!
Two evaluations side by side. They visit nodes that are read alike, each in its own scope, with its
own declarations and its own depth limit. A relation that the primitive steps have, that sequencing
keeps and that the looking up of names does not break relates the two evaluations as a whole.
-/

namespace TypeCalculus

namespace Eval

/-- Each primitive step is related to itself, and sequencing keeps the relation. Only the end of the
room is left out: that is where the two evaluations may part. -/
structure Lockstep (R : ∀ α : Type, Eval α → Eval α → Prop) : Prop where
  pure : ∀ {α} (a : α), R α (Pure.pure a) (Pure.pure a)
  throw : ∀ {α} (e : Abort), (∀ max, e ≠ .error (.depthExceeded max)) → R α (throw e) (throw e)
  bind : ∀ {α β} {act act' : Eval α} {next next' : α → Eval β}, R α act act' →
    (∀ a, R β (next a) (next' a)) → R β (act >>= next) (act' >>= next')
  note : ∀ miss, R Unit (Eval.note miss) (Eval.note miss)
  ask : ∀ {α} {question : Store → Except Fault α}, Store.Lasting question →
    R α (Eval.ask question) (Eval.ask question)
  union : ∀ ts, R TypeId (Eval.build (Store.union ts)) (Eval.build (Store.union ts))
  applied : ∀ base args,
    R TypeId (Eval.build (Store.applied base args)) (Eval.build (Store.applied base args))

/-- Looking up a name is related on both sides, in declarations and in scopes that correspond, and
scopes go on to correspond when both bind one name to one type. -/
structure Alike (R : ∀ α : Type, Eval α → Eval α → Prop) (S : Scope → Scope → Prop)
    (declared? declared' : Name → Option TypeId) : Prop where
  declared : ∀ name, R TypeId (resolved (declared? name) (.undeclaredType name))
    (resolved (declared' name) (.undeclaredType name))
  bound : ∀ {scope scope'} name, S scope scope' →
    R TypeId (resolved (scope.lookup? name) (.unboundVariable name))
      (resolved (scope'.lookup? name) (.unboundVariable name))
  extend : ∀ {scope scope'} binding, S scope scope' →
    S (scope.extend [binding]) (scope'.extend [binding])

/-- What ties two operations whose names are looked up alike and whose parts `S` pairs. The bodies of
two functions are paired whenever both parameters are bound to one type. -/
def ties (R : ∀ α : Type, Eval α → Eval α → Prop)
    (S : Position → Scope → NodeId → Scope → NodeId → Prop) (declared? declared' : Name → Option TypeId)
    (scope scope' : Scope) : Ties where
  vars x y := R TypeId (resolved (scope.lookup? x) (.unboundVariable x))
    (resolved (scope'.lookup? y) (.unboundVariable y))
  literal name := R TypeId (resolved (declared? name) (.undeclaredType name))
    (resolved (declared' name) (.undeclaredType name))
  nodes place id id' := S place scope id scope' id'
  functions param body param' body' :=
    ∀ t, S .type (scope.extend [(param, t)]) body (scope'.extend [(param', t)]) body'

/-- `S` pairs nodes, each in a scope, that are read as operations of one form with paired parts. In
type position it may also pair nodes that have related evaluations for some other reason, as long as
there is no more room than `bound`. -/
structure Pairing (R : ∀ α : Type, Eval α → Eval α → Prop) (cx cx' : Context)
    (S : Position → Scope → NodeId → Scope → NodeId → Prop) (bound : Nat) : Prop where
  type : ∀ {scope id scope' id'}, S .type scope id scope' id' →
    (∀ room room', room < bound →
      R TypeId (cx.typeAt (room + 1) scope id) (cx'.typeAt (room' + 1) scope' id')) ∨
      Concur (Operation.Resembles (ties R S cx.declared? cx'.declared? scope scope'))
        (cx.arena.operation cx.names id) (cx'.arena.operation cx'.names id')
  condition : ∀ {scope id scope' id'}, S .condition scope id scope' id' →
    Concur (Condition.Resembles (ties R S cx.declared? cx'.declared? scope scope'))
      (cx.arena.condition cx.names id) (cx'.arena.condition cx'.names id')

namespace Lockstep

variable {R : ∀ α : Type, Eval α → Eval α → Prop} {α β γ : Type}
  {declared? declared' : Name → Option TypeId}

/-- Two look-ups that find the same type, or find none and miss the same name. -/
theorem resolved_of_eq (h : Lockstep R) {found found' : Option TypeId} {miss miss' : Miss}
    (hfound : found = found') (hmiss : found = none → miss = miss') :
    R TypeId (Eval.resolved found miss) (Eval.resolved found' miss') := by
  subst hfound
  cases found with
  | some t => exact h.pure t
  | none =>
    cases hmiss rfl
    exact h.bind (h.note miss) fun _ => h.pure _

theorem resolved (h : Lockstep R) (found : Option TypeId) (miss : Miss) :
    R TypeId (Eval.resolved found miss) (Eval.resolved found miss) :=
  h.resolved_of_eq rfl fun _ => rfl

/-- Two evaluations in lockstep may be one and the same. -/
theorem eq : Lockstep fun _ act act' => act = act' where
  pure _ := rfl
  throw _ _ := rfl
  bind hact hnext := by
    rw [hact, funext hnext]
  note _ := rfl
  ask _ := rfl
  union _ := rfl
  applied _ _ := rfl

/-- Scopes correspond to themselves. -/
theorem alike (h : Lockstep R) (declared? : Name → Option TypeId) :
    Alike R Eq declared? declared? := by
  refine ⟨fun name => h.resolved _ _, ?_, ?_⟩
  · rintro scope _ name rfl
    exact h.resolved _ _
  · rintro scope _ binding rfl
    rfl

theorem bind_of_concur (h : Lockstep R) {Q : α → β → Prop} {x : Except Abort α} {y : Except Abort β}
    (hxy : Concur Q x y) (hx : ∀ e, x = .error e → ∀ max, e ≠ .error (.depthExceeded max))
    {next : α → Eval γ} {next' : β → Eval γ} (hn : ∀ a b, Q a b → R γ (next a) (next' b)) :
    R γ (Eval.ofExcept x >>= next) (Eval.ofExcept y >>= next') := by
  cases hxy with
  | ok hab => exact hn _ _ hab
  | error e => exact h.throw e (hx e rfl)

theorem mapM (h : Lockstep R) {Q : α → β → Prop} {act : α → Eval γ} {act' : β → Eval γ}
    (ha : ∀ a b, Q a b → R γ (act a) (act' b)) {as : List α} {bs : List β}
    (hab : List.Forall₂ Q as bs) : R (List γ) (as.mapM act) (bs.mapM act') := by
  induction hab with
  | nil => exact h.pure []
  | cons hab _ ih =>
    rw [List.mapM_cons, List.mapM_cons]
    exact h.bind (ha _ _ hab) fun c => h.bind ih fun cs => h.pure (c :: cs)

section Rules

variable {S : Position → Scope → NodeId → Scope → NodeId → Prop}
  {typeOf typeOf' : Scope → NodeId → Eval TypeId} {holds holds' : Scope → NodeId → Eval Bool}
  {scope scope' : Scope}

theorem operation (h : Lockstep R)
    (ht : ∀ {scope id scope' id'}, S .type scope id scope' id' →
      R TypeId (typeOf scope id) (typeOf' scope' id'))
    (hh : ∀ {scope id scope' id'}, S .condition scope id scope' id' →
      R Bool (holds scope id) (holds' scope' id'))
    {op op' : Operation} (hop : op.Resembles (ties R S declared? declared' scope scope') op') :
    R TypeId (op.eval typeOf declared? holds scope) (op'.eval typeOf' declared' holds' scope') := by
  have operands {ids ids' : List NodeId}
      (hs : List.Forall₂ (fun id id' => S .type scope id scope' id') ids ids') :
      R (List TypeId) (ids.mapM (typeOf scope)) (ids'.mapM (typeOf' scope')) :=
    h.mapM (fun _ _ hid => ht hid) hs
  cases hop with
  | var hv => exact hv
  | empty | all | unknown => exact h.pure _
  | named hl hs =>
    refine h.bind (operands hs) fun ts => h.bind hl fun base => ?_
    split
    · exact h.pure base
    · exact h.applied base ts
  | union hs => exact h.bind (operands hs) h.union
  | cond htest hyes hno =>
    refine h.bind (hh htest) fun holds => ?_
    split
    · exact ht hyes
    · exact ht hno
  | mapUnion hs hf =>
    refine h.bind (ht hs) fun t => h.bind (h.ask (.members t)) fun ms => h.bind ?_ h.union
    -- Both bodies are run for the same members.
    have hms : List.Forall₂ Eq ms ms := List.forall₂_same.2 fun _ _ => rfl
    exact h.mapM (fun m m' hm => hm ▸ ht (hf m)) hms
  | rawTypeOf hs => exact h.bind (ht hs) fun t => h.bind (h.ask (.base? t)) fun base => h.pure _
  | templateTypeOf hs => exact h.bind (ht hs) fun t => h.bind (h.ask (.args t)) fun args => h.pure _

theorem condition (h : Lockstep R)
    (ht : ∀ {scope id scope' id'}, S .type scope id scope' id' →
      R TypeId (typeOf scope id) (typeOf' scope' id'))
    {condition condition' : Condition}
    (hc : condition.Resembles (ties R S declared? declared' scope scope') condition') :
    R Bool (condition.eval typeOf scope) (condition'.eval typeOf' scope') := by
  cases hc with
  | eq hl hr => exact h.bind (ht hl) fun l => h.bind (ht hr) fun r => h.pure _
  | sub hl hu => exact h.bind (ht hl) fun l => h.bind (ht hu) fun u => h.ask (.isSubtype l u)
  | isTemplatized hs =>
    exact h.bind (ht hs) fun t => h.bind (h.ask (.traits t)) fun traits => h.pure _
  | isUnknown hs => exact h.bind (ht hs) fun t => h.pure _

end Rules

section Run

variable {S : Position → Scope → NodeId → Scope → NodeId → Prop} {cx cx' : Context}

/-- Paired nodes have related evaluations. The evaluation that runs out of room first is the one on
the left; what it does then has to be related to whatever the other goes on to do. -/
theorem typeAt_and_holdsAt_of_pairing (h : Lockstep R) {bound : Nat} (hp : Pairing R cx cx' S bound)
    {extra : Nat} (ht : ∀ scope id, R TypeId cx.exhausted (cx'.typeAt extra scope id))
    (hh : ∀ scope id, R Bool cx.exhausted (cx'.holdsAt extra scope id)) {room : Nat}
    (hroom : room ≤ bound) :
    (∀ {scope id scope' id'}, S .type scope id scope' id' →
        R TypeId (cx.typeAt room scope id) (cx'.typeAt (extra + room) scope' id')) ∧
      ∀ {scope id scope' id'}, S .condition scope id scope' id' →
        R Bool (cx.holdsAt room scope id) (cx'.holdsAt (extra + room) scope' id') := by
  induction room with
  | zero => exact ⟨fun _ => ht _ _, fun _ => hh _ _⟩
  | succ room ih =>
    obtain ⟨iht, ihh⟩ := ih (Nat.le_of_succ_le hroom)
    constructor
    · intro scope id scope' id' hs
      rcases hp.type hs with hleaf | hop
      · exact hleaf room (extra + room) hroom
      · have hread (e) (he : cx.arena.Refuses cx.names .type id e) := he.ne_depthExceeded
        exact h.bind_of_concur hop hread fun _ _ => h.operation iht ihh
    · intro scope id scope' id' hs
      have hread (e) (he : cx.arena.Refuses cx.names .condition id e) := he.ne_depthExceeded
      exact h.bind_of_concur (hp.condition hs) hread fun _ _ => h.condition iht

/-- With equal room both evaluations run out of it at once. -/
theorem typeAt_of_pairing (h : Lockstep R) {room : Nat} (hp : Pairing R cx cx' S room)
    (hend : ∀ α : Type, R α cx.exhausted cx'.exhausted) {scope scope' : Scope} {id id' : NodeId}
    (hs : S .type scope id scope' id') :
    R TypeId (cx.typeAt room scope id) (cx'.typeAt room scope' id') := by
  have htype (scope id) : R TypeId cx.exhausted (cx'.typeAt 0 scope id) := hend TypeId
  have hholds (scope id) : R Bool cx.exhausted (cx'.holdsAt 0 scope id) := hend Bool
  have hrun := (h.typeAt_and_holdsAt_of_pairing hp htype hholds (Nat.le_refl room)).1 hs
  rwa [Nat.zero_add] at hrun

/-- Both evaluations visit the same nodes of one arena, in scopes that correspond. -/
theorem pairing_of_alike {S : Scope → Scope → Prop} (hn : cx.names = cx'.names)
    (ha : cx.arena = cx'.arena) (hal : Alike R S cx.declared? cx'.declared?) (bound : Nat) :
    Pairing R cx cx' (fun _ scope id scope' id' => id = id' ∧ S scope scope') bound where
  type {scope id scope' id'} := by
    rintro ⟨rfl, hs⟩
    rw [hn, ha]
    refine .inr (.of_self fun op hop => (Arena.operation_iff.1 hop).resembles ?_ ?_ ?_ ?_)
    · exact fun x _ => hal.bound x hs
    · exact fun name _ _ => hal.declared name
    · exact fun _ _ _ => ⟨rfl, hs⟩
    · exact fun _ _ _ _ t => ⟨rfl, hal.extend (_, t) hs⟩
  condition {scope id scope' id'} := by
    rintro ⟨rfl, hs⟩
    rw [hn, ha]
    refine .of_self fun condition hcondition => (Arena.condition_iff.1 hcondition).resembles ?_
    exact fun _ _ => ⟨rfl, hs⟩

theorem typeAt_and_holdsAt {S : Scope → Scope → Prop} (h : Lockstep R) (cx cx' : Context)
    (hn : cx.names = cx'.names) (ha : cx.arena = cx'.arena)
    (hal : Alike R S cx.declared? cx'.declared?)
    (ht : ∀ room scope id, R TypeId cx.exhausted (cx'.typeAt room scope id))
    (hh : ∀ room scope id, R Bool cx.exhausted (cx'.holdsAt room scope id))
    {room room' : Nat} (hroom : room ≤ room') :
    (∀ {scope scope'} id, S scope scope' →
        R TypeId (cx.typeAt room scope id) (cx'.typeAt room' scope' id)) ∧
      ∀ {scope scope'} id, S scope scope' →
        R Bool (cx.holdsAt room scope id) (cx'.holdsAt room' scope' id) := by
  obtain ⟨extra, rfl⟩ := Nat.exists_eq_add_of_le' hroom
  obtain ⟨htype, hholds⟩ := h.typeAt_and_holdsAt_of_pairing (pairing_of_alike hn ha hal room)
    (ht extra) (hh extra) (Nat.le_refl room)
  exact ⟨fun id hs => htype ⟨rfl, hs⟩, fun id hs => hholds ⟨rfl, hs⟩⟩

end Run

end Lockstep

end Eval

end TypeCalculus
