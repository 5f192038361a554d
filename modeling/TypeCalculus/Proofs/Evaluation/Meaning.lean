import Mathlib.Data.List.Forall2
import Mathlib.Data.List.Perm.Basic
import Mathlib.Data.Set.Insert
import TypeCalculus.Evaluation.Eval
import TypeCalculus.Proofs.Tree

/-!
What expressions mean on trees. There is no store here and no handle: a meaning is a tree with the
set of names that did not resolve on the way to it, or nothing if the expression has none within
the levels allowed.
-/

namespace TypeCalculus

inductive Meaning (α : Type) where
  | nothing
  /-- A result with the names that did not resolve. -/
  | result (a : α) (misses : Set Miss)

namespace Meaning

variable {α β γ : Type}

def andThen (next : α → Meaning β) : Meaning α → Meaning β
  | nothing => nothing
  | result a D => match next a with
    | nothing => nothing
    | result b D' => result b (D ∪ D')

instance : Monad Meaning where
  pure a := result a ∅
  bind m next := m.andThen next

theorem bind_eq_result_iff {m : Meaning α} {next : α → Meaning β} {b : β} {D : Set Miss} :
    (m >>= next) = result b D ↔
      ∃ a D₁ D₂, m = result a D₁ ∧ next a = result b D₂ ∧ D = D₁ ∪ D₂ := by
  change m.andThen next = _ ↔ _
  cases m with
  | nothing => simp [andThen]
  | result a D₁ => cases hn : next a <;> simp [andThen, hn, eq_comm, and_comm, and_assoc]

theorem bind_result {m : Meaning α} {next : α → Meaning β} {a : α} {b : β} {D D' : Set Miss}
    (hm : m = result a D) (hn : next a = result b D') : (m >>= next) = result b (D ∪ D') :=
  bind_eq_result_iff.2 ⟨a, D, D', hm, hn, rfl⟩

theorem pure_eq_result_iff {a b : α} {D : Set Miss} :
    (pure a : Meaning α) = result b D ↔ a = b ∧ D = ∅ := by
  change result a ∅ = result b D ↔ _
  simp [eq_comm]

theorem ext_result {m m' : Meaning α} (h : ∀ a D, m = result a D ↔ m' = result a D) : m = m' := by
  cases m with
  | nothing =>
    cases m' with
    | nothing => rfl
    | result a D => exact (h a D).2 rfl
  | result a D => exact ((h a D).1 rfl).symm

instance : LawfulMonad Meaning := by
  refine LawfulMonad.mk' Meaning (fun m => ?_) (fun a next => ?_) fun m next last => ?_
  · cases m with
    | nothing => rfl
    | result a D => exact congrArg (result a) (Set.union_empty D)
  · refine ext_result fun b D => ?_
    simp [bind_eq_result_iff, pure_eq_result_iff]
  · refine ext_result fun c D => ?_
    simp only [bind_eq_result_iff]
    constructor
    · rintro ⟨b, _, D₃, ⟨a, D₁, D₂, hm, hb, rfl⟩, hc, rfl⟩
      exact ⟨a, D₁, D₂ ∪ D₃, hm, ⟨b, D₂, D₃, hb, hc, rfl⟩, Set.union_assoc D₁ D₂ D₃⟩
    · rintro ⟨a, D₁, _, hm, ⟨b, D₂, D₃, hb, hc, rfl⟩, rfl⟩
      exact ⟨b, D₁ ∪ D₂, D₃, ⟨a, D₁, D₂, hm, hb, rfl⟩, hc, (Set.union_assoc D₁ D₂ D₃).symm⟩

/-- A meaning is below another if that one has its result too. -/
instance : LE (Meaning α) := ⟨fun m m' => ∀ a D, m = result a D → m' = result a D⟩

theorem le_rfl {m : Meaning α} : m ≤ m := fun _ _ h => h

theorem nothing_le {m : Meaning α} : nothing ≤ m := fun _ _ h => by cases h

theorem bind_le {m m' : Meaning α} {next next' : α → Meaning β} (hm : m ≤ m')
    (hn : ∀ a, next a ≤ next' a) : (m >>= next) ≤ (m' >>= next') := by
  intro b D h
  obtain ⟨a, D₁, D₂, ha, hb, hD⟩ := bind_eq_result_iff.1 h
  exact bind_eq_result_iff.2 ⟨a, D₁, D₂, hm a D₁ ha, hn a b D₂ hb, hD⟩

theorem mapM_le {f f' : α → Meaning β} (h : ∀ a, f a ≤ f' a) (as : List α) :
    as.mapM f ≤ as.mapM f' := by
  induction as with
  | nil => exact le_rfl
  | cons a as ih =>
    rw [List.mapM_cons, List.mapM_cons]
    exact bind_le (h a) fun b => bind_le ih fun bs => le_rfl

theorem mapM_eq_result_iff {f : α → Meaning β} {as : List α} {bs : List β} {D : Set Miss} :
    as.mapM f = result bs D ↔ ∃ rs : List (β × Set Miss),
      List.Forall₂ (fun a r => f a = result r.1 r.2) as rs ∧ bs = rs.map Prod.fst ∧
        D = {miss | ∃ r ∈ rs, miss ∈ r.2} := by
  induction as generalizing bs D with
  | nil =>
    rw [List.mapM_nil, pure_eq_result_iff]
    constructor
    · rintro ⟨rfl, rfl⟩
      exact ⟨[], .nil, rfl, by simp⟩
    · rintro ⟨_, h, rfl, rfl⟩
      cases h
      simp
  | cons a as ih =>
    simp only [List.mapM_cons, bind_eq_result_iff, pure_eq_result_iff, ih]
    constructor
    · rintro ⟨b, D₁, _, hb, ⟨_, _, _, ⟨rs, hrs, rfl, rfl⟩, ⟨rfl, rfl⟩, rfl⟩, rfl⟩
      refine ⟨(b, D₁) :: rs, .cons hb hrs, rfl, ?_⟩
      ext miss
      simp
    · rintro ⟨_, hrs, rfl, rfl⟩
      cases hrs with
      | @cons _ r _ rs hb hrs =>
        refine ⟨r.1, r.2, _, hb, ⟨_, _, _, ⟨rs, hrs, rfl, rfl⟩, ⟨rfl, rfl⟩, rfl⟩, ?_⟩
        ext miss
        simp

theorem forall₂_of_mapM {f : α → Meaning β} {as : List α} {bs : List β} {D : Set Miss}
    (h : as.mapM f = result bs D) : List.Forall₂ (fun a b => ∃ D', f a = result b D') as bs := by
  obtain ⟨rs, hrs, rfl, -⟩ := mapM_eq_result_iff.1 h
  exact List.forall₂_map_right_iff.2 (hrs.imp fun a r hr => ⟨r.2, hr⟩)

/-- If each element of a list has its result with enough room, all of them have theirs with the
largest room that any of them needs. -/
theorem exists_mapM {f : Nat → α → Meaning β} (hf : ∀ {n n'}, n ≤ n' → ∀ a, f n a ≤ f n' a)
    {as : List α} {bs : List β} (h : List.Forall₂ (fun a b => ∃ n D, f n a = result b D) as bs) :
    ∃ n D, as.mapM (f n) = result bs D := by
  induction h with
  | nil => exact ⟨0, ∅, rfl⟩
  | @cons a b as bs hab _ ih =>
    obtain ⟨n, D, hb⟩ := hab
    obtain ⟨n', D', hbs⟩ := ih
    have hb' : f (max n n') a = result b D := hf (Nat.le_max_left n n') a b D hb
    have hbs' : as.mapM (f (max n n')) = result bs D' :=
      mapM_le (hf (Nat.le_max_right n n')) as bs D' hbs
    refine ⟨max n n', D ∪ (D' ∪ ∅), ?_⟩
    rw [List.mapM_cons]
    exact bind_result hb' (bind_result hbs' rfl)

theorem mapM_perm {f : α → Meaning β} {as as' : List α} (h : as.Perm as') {bs : List β}
    {D : Set Miss} (hbs : as.mapM f = result bs D) :
    ∃ bs', as'.mapM f = result bs' D ∧ bs.Perm bs' := by
  obtain ⟨rs, hrs, rfl, rfl⟩ := mapM_eq_result_iff.1 hbs
  -- The misses are a set, so only the order of the results follows that of the list.
  obtain ⟨rs', hrs', hperm⟩ := List.perm_comp_forall₂ h.symm hrs
  refine ⟨rs'.map Prod.fst, mapM_eq_result_iff.2 ⟨rs', hrs', rfl, ?_⟩, (hperm.map Prod.fst).symm⟩
  ext miss
  simp [hperm.mem_iff]

theorem join_mapM_perm {f : α → Meaning Tree} {as as' : List α} (h : as.Perm as') :
    (do return Tree.join (← as.mapM f)) = (do return Tree.join (← as'.mapM f) : Meaning Tree) := by
  have himp : ∀ {as as' : List α}, as.Perm as' → ∀ T D,
      (do return Tree.join (← as.mapM f)) = result T D →
        (do return Tree.join (← as'.mapM f)) = result T D := by
    intro as as' h T D hT
    simp only [bind_eq_result_iff, pure_eq_result_iff] at hT ⊢
    obtain ⟨Ts, D₁, D₂, hTs, ⟨rfl, rfl⟩, rfl⟩ := hT
    obtain ⟨Us, hUs, hperm⟩ := mapM_perm h hTs
    exact ⟨Us, D₁, ∅, hUs, ⟨(Tree.join_perm hperm).symm, rfl⟩, rfl⟩
  exact ext_result fun T D => ⟨himp h T D, himp h.symm T D⟩

def note (miss : Miss) : Meaning Unit := result () {miss}

def ofExcept : Except Abort α → Meaning α
  | .ok a => pure a
  | .error _ => nothing

def resolved (found : Option Tree) (miss : Miss) : Meaning Tree :=
  match found with
  | some t => return t
  | none => do
    note miss
    return .unknown

theorem exists_resolved_iff (found : Option Tree) (miss : Miss) {T : Tree} :
    (∃ D, resolved found miss = result T D) ↔ T = found.getD .unknown := by
  cases found with
  | some t => simp [resolved, pure_eq_result_iff, eq_comm]
  | none =>
    constructor
    · rintro ⟨D, h⟩
      obtain ⟨_, D₁, D₂, -, hT, -⟩ := bind_eq_result_iff.1 h
      exact (pure_eq_result_iff.1 hT).1.symm
    · rintro rfl
      exact ⟨_, rfl⟩

theorem ofExcept_eq_result_iff {r : Except Abort α} {a : α} {D : Set Miss} :
    ofExcept r = result a D ↔ r = .ok a ∧ D = ∅ := by
  cases r with
  | ok a' => simp [ofExcept, pure_eq_result_iff]
  | error e => simp [ofExcept]

end Meaning

noncomputable instance (a b : Tree) : Decidable (a.Below b) := Classical.propDecidable _

/-- The trees that names stand for. -/
abbrev Env := Name → Option Tree

theorem Env.forall_update {P : Tree → Prop} {env : Env} (h : ∀ name T, env name = some T → P T)
    {param : Name} {U : Tree} (hU : P U) :
    ∀ name T, Function.update env param (some U) name = some T → P T := by
  intro name T hT
  rw [Function.update_apply] at hT
  split at hT
  · cases hT
    exact hU
  · exact h name T hT

section Rules

variable (typeOf : Env → NodeId → Meaning Tree)

/-- The rule of each operation on trees. -/
def Operation.meaning (declared? : Env) (holds : Env → NodeId → Meaning Bool) (env : Env) :
    Operation → Meaning Tree
  | var name => Meaning.resolved (env name) (.unboundVariable name)
  | empty => return .empty
  | all => return .all
  | unknown => return .unknown
  | named name args => do
    let args ← args.mapM (typeOf env)
    let base ← Meaning.resolved (declared? name) (.undeclaredType name)
    return base.apply args
  | union operands => do
    let types ← operands.mapM (typeOf env)
    return .join types
  | cond test yes no => do
    if ← holds env test then typeOf env yes else typeOf env no
  | mapUnion source param body => do
    let source ← typeOf env source
    let types ← source.members.mapM fun member =>
      typeOf (Function.update env param (some member)) body
    return .join types
  | rawTypeOf subject => do
    let t ← typeOf env subject
    return t.base?.getD .unknown
  | templateTypeOf subject place => do
    let t ← typeOf env subject
    return t.args[place]?.getD .unknown

noncomputable def Condition.meaning (env : Env) : Condition → Meaning Bool
  | eq left right => do
    let left ← typeOf env left
    let right ← typeOf env right
    return left = right
  | sub lower upper => do
    let lower ← typeOf env lower
    let upper ← typeOf env upper
    return lower.Below upper
  | isTemplatized subject => do
    let t ← typeOf env subject
    return t.isApplied
  | isUnknown subject => do
    let t ← typeOf env subject
    return t = .unknown

end Rules

section Monotonicity

variable {typeOf typeOf' : Env → NodeId → Meaning Tree} {holds holds' : Env → NodeId → Meaning Bool}

theorem Operation.meaning_le (ht : ∀ env id, typeOf env id ≤ typeOf' env id)
    (hh : ∀ env id, holds env id ≤ holds' env id) (declared? env : Env) (op : Operation) :
    op.meaning typeOf declared? holds env ≤ op.meaning typeOf' declared? holds' env := by
  cases op with
  | var | empty | all | unknown => exact Meaning.le_rfl
  | named name args => exact Meaning.bind_le (Meaning.mapM_le (ht env) args) fun As => Meaning.le_rfl
  | union operands => exact Meaning.bind_le (Meaning.mapM_le (ht env) operands) fun Ts => Meaning.le_rfl
  | cond test yes no =>
    refine Meaning.bind_le (hh env test) fun b => ?_
    cases b with
    | true => exact ht env yes
    | false => exact ht env no
  | mapUnion source param body =>
    refine Meaning.bind_le (ht env source) fun S => ?_
    exact Meaning.bind_le (Meaning.mapM_le (fun M => ht _ body) S.members) fun Ts => Meaning.le_rfl
  | rawTypeOf subject => exact Meaning.bind_le (ht env subject) fun S => Meaning.le_rfl
  | templateTypeOf subject place => exact Meaning.bind_le (ht env subject) fun S => Meaning.le_rfl

theorem Condition.meaning_le (ht : ∀ env id, typeOf env id ≤ typeOf' env id) (env : Env)
    (condition : Condition) : condition.meaning typeOf env ≤ condition.meaning typeOf' env := by
  cases condition with
  | eq left right =>
    exact Meaning.bind_le (ht env left) fun L => Meaning.bind_le (ht env right) fun R => Meaning.le_rfl
  | sub lower upper =>
    exact Meaning.bind_le (ht env lower) fun L => Meaning.bind_le (ht env upper) fun U => Meaning.le_rfl
  | isTemplatized subject => exact Meaning.bind_le (ht env subject) fun S => Meaning.le_rfl
  | isUnknown subject => exact Meaning.bind_le (ht env subject) fun S => Meaning.le_rfl

end Monotonicity

/-- What an expression is read against when types are trees. -/
structure Setting where
  names : NameTable
  arena : Arena
  declared? : Env

namespace Setting

mutual

/-- What a node means in type position, with room for so many levels. -/
noncomputable def typeAt (st : Setting) : Nat → Env → NodeId → Meaning Tree
  | 0, _, _ => .nothing
  | room + 1, env, id => do
    let op ← Meaning.ofExcept (st.arena.operation st.names id)
    op.meaning (typeAt st room) st.declared? (holdsAt st room) env

noncomputable def holdsAt (st : Setting) : Nat → Env → NodeId → Meaning Bool
  | 0, _, _ => .nothing
  | room + 1, env, id => do
    let condition ← Meaning.ofExcept (st.arena.condition st.names id)
    condition.meaning (typeAt st room) env

end

theorem typeAt_and_holdsAt_le (st : Setting) {room room' : Nat} (h : room ≤ room') :
    (∀ env id, st.typeAt room env id ≤ st.typeAt room' env id) ∧
      ∀ env id, st.holdsAt room env id ≤ st.holdsAt room' env id := by
  induction room generalizing room' with
  | zero => exact ⟨fun _ _ => Meaning.nothing_le, fun _ _ => Meaning.nothing_le⟩
  | succ room ih =>
    obtain ⟨room', rfl⟩ := Nat.exists_eq_add_of_lt h
    obtain ⟨ht, hh⟩ := ih (Nat.le_add_right room room')
    exact ⟨fun env id => Meaning.bind_le Meaning.le_rfl (Operation.meaning_le ht hh st.declared? env),
      fun env id => Meaning.bind_le Meaning.le_rfl (Condition.meaning_le ht env)⟩

theorem typeAt_le (st : Setting) {room room' : Nat} (h : room ≤ room') (env : Env) (id : NodeId) :
    st.typeAt room env id ≤ st.typeAt room' env id := (st.typeAt_and_holdsAt_le h).1 env id

end Setting

end TypeCalculus
