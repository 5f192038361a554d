import Std.Data.TreeSet
import TypeCalculus.Store.Basic

/-!
The three ways to make a type. Each brings its result into normal form before it is stored: a union
is flat, in order and free of repetitions, and only nominal types take template arguments.
-/

namespace TypeCalculus

/-- The same elements in ascending order, each of them once. -/
def normalize {α : Type} [Ord α] (as : List α) : List α := (Std.TreeSet.ofList as compare).toList

section Normalize

variable {α : Type} [Ord α] [Std.TransOrd α]

theorem pairwise_normalize (as : List α) :
    (normalize as).Pairwise fun a b => compare a b = .lt :=
  Std.TreeSet.ordered_toList

@[simp] theorem mem_normalize [Std.LawfulEqOrd α] {a : α} {as : List α} :
    a ∈ normalize as ↔ a ∈ as := by
  classical
  simp [normalize, Std.TreeSet.mem_toList, Std.TreeSet.mem_ofList]

theorem nodup_of_pairwise_lt {as : List α} (h : as.Pairwise fun a b => compare a b = .lt) :
    as.Nodup := by
  refine h.imp fun hlt => ?_
  rintro rfl
  rw [Std.ReflOrd.compare_self] at hlt
  cases hlt

theorem eq_of_pairwise_lt {as bs : List α} (ha : as.Pairwise fun a b => compare a b = .lt)
    (hb : bs.Pairwise fun a b => compare a b = .lt) (h : ∀ a, a ∈ as ↔ a ∈ bs) : as = bs := by
  have hperm := (List.perm_ext_iff_of_nodup (nodup_of_pairwise_lt ha) (nodup_of_pairwise_lt hb)).2 h
  refine hperm.eq_of_pairwise (fun a b _ _ hab hba => ?_) ha hb
  rw [Std.OrientedOrd.eq_swap, hba] at hab
  cases hab

theorem normalize_congr [Std.LawfulEqOrd α] {as bs : List α} (h : ∀ a, a ∈ as ↔ a ∈ bs) :
    normalize as = normalize bs :=
  eq_of_pairwise_lt (pairwise_normalize as) (pairwise_normalize bs) (by simpa using h)

/-- A list in normal form is the set of its elements. -/
theorem normalize_eq_iff [Std.LawfulEqOrd α] {as bs : List α} :
    normalize as = normalize bs ↔ ∀ a, a ∈ as ↔ a ∈ bs := by
  refine ⟨fun h a => ?_, normalize_congr⟩
  rw [← mem_normalize, h, mem_normalize]

end Normalize

namespace Store

def named (name : Name) : StoreM TypeId := intern (.named name)

/-- The members of several types in a row, or nothing if `?` is met before any fault. -/
def flatten? (s : Store) : List TypeId → Except Fault (Option (List TypeId))
  | [] => .ok (some [])
  | t :: ts => do
    if t.isUnknown then return none
    let members ← s.members t
    return (← s.flatten? ts).map (members ++ ·)

/-- The union of `ts`: `?` absorbs all else, then `*` does; a single member is its own union. -/
def union (ts : List TypeId) : StoreM TypeId := do
  match ← StoreM.ask (·.flatten? ts) with
  | none => return .unknown
  | some flat =>
    if TypeId.all ∈ flat then return .all
    match normalize flat with
    | [] => return .empty
    | [t] => return t
    | members => intern (.union members)

/-- `base` with template arguments; without arguments, or if it is not nominal, `base` itself. -/
def applied (base : TypeId) (args : List TypeId) : StoreM TypeId := do
  if args.isEmpty then return base
  if (← StoreM.ask (·.kind base)) = .named then intern (.applied base args)
  else return base

end Store

end TypeCalculus
