import TypeCalculus.Store.Build

/-!
Types as trees, without handles. A union lists its members in ascending order, each of them once,
so a union is the set of its members and two trees are equal exactly when they are the same type.
-/

namespace TypeCalculus

inductive Tree where
  | unknown
  | all
  | empty
  | named (name : Name)
  | union (members : List Tree)
  | applied (base : Tree) (args : List Tree)

namespace Tree

mutual

/-- A word for each tree. No word begins another one. -/
def code : Tree → List Nat
  | unknown => [0]
  | all => [1]
  | empty => [2]
  | named name => [3, name.raw]
  | union members => 4 :: members.length :: codes members
  | applied base args => 5 :: args.length :: (base.code ++ codes args)

def codes : List Tree → List Nat
  | [] => []
  | t :: ts => t.code ++ codes ts

end

mutual

theorem code_append_cancel (a b : Tree) {r r' : List Nat} (h : a.code ++ r = b.code ++ r') :
    a = b ∧ r = r' := by
  cases a with
  | union ms =>
    cases b with
    | union ns =>
      -- The length tells how many of the words that follow belong to the members.
      simp only [code, List.cons_append, List.cons.injEq, true_and] at h
      obtain ⟨rfl, hr⟩ := codes_append_cancel ms ns h.1 h.2
      exact ⟨rfl, hr⟩
    | _ => simp [code] at h
  | applied base args =>
    cases b with
    | applied base' args' =>
      simp only [code, List.cons_append, List.append_assoc, List.cons.injEq, true_and] at h
      obtain ⟨rfl, h'⟩ := code_append_cancel base base' h.2
      obtain ⟨rfl, hr⟩ := codes_append_cancel args args' h.1 h'
      exact ⟨rfl, hr⟩
    | _ => simp [code] at h
  | named name =>
    cases b with
    | named name' =>
      simp only [code, List.cons_append, List.nil_append, List.cons.injEq, true_and] at h
      exact ⟨congrArg named (Name.raw_injective h.1), h.2⟩
    | _ => simp [code] at h
  | unknown | all | empty => cases b <;> simp_all [code]

theorem codes_append_cancel (as bs : List Tree) {r r' : List Nat} (hl : as.length = bs.length)
    (h : codes as ++ r = codes bs ++ r') : as = bs ∧ r = r' := by
  match as, bs, hl with
  | [], [], _ => exact ⟨rfl, h⟩
  | a :: as, b :: bs, hl =>
    simp only [codes, List.append_assoc] at h
    obtain ⟨rfl, h'⟩ := code_append_cancel a b h
    obtain ⟨rfl, hr⟩ := codes_append_cancel as bs (Nat.succ.inj hl) h'
    exact ⟨rfl, hr⟩

end

theorem code_injective {a b : Tree} (h : a.code = b.code) : a = b :=
  (code_append_cancel a b (congrArg (· ++ []) h)).1

instance : DecidableEq Tree := fun a b =>
  decidable_of_iff (a.code = b.code) ⟨code_injective, congrArg code⟩

/-- Trees are in the order of their code words. -/
instance : Ord Tree := ⟨compareOn code⟩

instance : Std.TransOrd Tree := inferInstanceAs (Std.TransCmp (compareOn code))

instance : Std.LawfulEqOrd Tree where
  eq_of_compare h := code_injective (Std.LawfulEqOrd.eq_of_compare h)

/-- A tree seen as a union: the empty type has no members and all but unions are their own. -/
def members : Tree → List Tree
  | union members => members
  | empty => []
  | t => [t]

/-- Members put together; a single member is its own union. -/
def ofMembers : List Tree → Tree
  | [] => empty
  | [t] => t
  | ms => union (normalize ms)

/-- The union of trees: `?` absorbs all else, then `*` does; the members of what is left are put
together, each of them once. -/
def join (ts : List Tree) : Tree :=
  if unknown ∈ ts then unknown
  else if all ∈ ts.flatMap members then all
  else ofMembers (normalize (ts.flatMap members))

theorem ofMembers_perm {ms ns : List Tree} (h : ms.Perm ns) : ofMembers ms = ofMembers ns := by
  match ms, ns, h.length_eq with
  | [], [], _ => rfl
  | [m], [n], _ => rw [List.singleton_perm_singleton.1 h]
  | m :: m' :: ms, n :: n' :: ns, _ => exact congrArg union (normalize_congr fun t => h.mem_iff)

theorem join_perm {ts us : List Tree} (h : ts.Perm us) : join ts = join us := by
  have hmembers : (ts.flatMap members).Perm (us.flatMap members) := h.flatMap_right members
  simp only [join, h.mem_iff, hmembers.mem_iff, normalize_congr fun t => hmembers.mem_iff]

def isNamed : Tree → Bool
  | named _ => true
  | _ => false

def isApplied : Tree → Bool
  | applied _ _ => true
  | _ => false

/-- `base` with template arguments; without arguments, or if it is not nominal, `base` itself. -/
def apply (base : Tree) (args : List Tree) : Tree :=
  if base.isNamed ∧ args ≠ [] then applied base args else base

def base? : Tree → Option Tree
  | applied base _ => some base
  | _ => none

def args : Tree → List Tree
  | applied _ args => args
  | _ => []

/-- `?` is the tree or occurs somewhere inside. -/
inductive MentionsUnknown : Tree → Prop where
  | unknown : MentionsUnknown unknown
  | member {m members} : m ∈ members → MentionsUnknown m → MentionsUnknown (union members)
  | base {base args} : MentionsUnknown base → MentionsUnknown (applied base args)
  | arg {a base args} : a ∈ args → MentionsUnknown a → MentionsUnknown (applied base args)

/-- Two template arguments agree when `?` stands for any argument. -/
inductive Matches : Tree → Tree → Prop where
  | refl (a) : Matches a a
  | unknown_left (b) : Matches unknown b
  | unknown_right (a) : Matches a unknown
  | applied {base as bs} : as.length = bs.length → (∀ p ∈ as.zip bs, Matches p.1 p.2) →
      Matches (applied base as) (applied base bs)

/-- The rules of subtyping, to be used in any order. -/
inductive Below : Tree → Tree → Prop where
  | refl (a) : Below a a
  | all (a) : Below a all
  | unknown_right (a) : Below a unknown
  | unknown_left (b) : Below unknown b
  | empty (b) : Below empty b
  | union_left {members b} : (∀ m ∈ members, Below m b) → Below (union members) b
  | union_right {a m members} : m ∈ members → Below a m → Below a (union members)
  | raw (base args) : Below (applied base args) base
  | applied {base as bs} : as.length = bs.length → (∀ p ∈ as.zip bs, Matches p.1 p.2) →
      Below (applied base as) (applied base bs)

end Tree

end TypeCalculus
