import TypeCalculus.Proofs.Store.Reading
import TypeCalculus.Scope

/-!
Properties that a type has exactly if its parts have them. Taking a type apart and putting types
together do not lead out of such a property, however they follow on each other.
-/

namespace TypeCalculus

namespace Tree

/-- `*` and the empty type have the property, and a compound type has it if and only if all of its
parts do. Nothing is said of `?` and of nominal types. -/
structure Hereditary (P : Tree → Prop) : Prop where
  all : P .all
  empty : P .empty
  union_iff : ∀ {members}, P (.union members) ↔ ∀ m ∈ members, P m
  applied_iff : ∀ {base args}, P (.applied base args) ↔ P base ∧ ∀ a ∈ args, P a

namespace Hereditary

variable {P : Tree → Prop} {T B : Tree} {Ts : List Tree}

theorem members (h : Hereditary P) (hT : P T) : ∀ M ∈ T.members, P M := by
  cases T with
  | union ms => exact h.union_iff.1 hT
  | empty => exact List.forall_mem_nil _
  | unknown | all | named | applied => exact List.forall_mem_singleton.2 hT

theorem base? (h : Hereditary P) (hT : P T) (hB : T.base? = some B) : P B := by
  cases T with
  | applied base args =>
    cases hB
    exact (h.applied_iff.1 hT).1
  | unknown | all | empty | named | union => cases hB

theorem args (h : Hereditary P) (hT : P T) : ∀ A ∈ T.args, P A := by
  cases T with
  | applied base args => exact (h.applied_iff.1 hT).2
  | unknown | all | empty | named | union => exact List.forall_mem_nil _

theorem ofMembers (h : Hereditary P) (hTs : ∀ T ∈ Ts, P T) : P (.ofMembers Ts) := by
  match Ts with
  | [] => exact h.empty
  | [T] => exact hTs T List.mem_cons_self
  | T :: U :: Ts => exact h.union_iff.2 fun M hM => hTs M (mem_normalize.1 hM)

/-- A union can only be `?` if one of the types in it is. -/
theorem join (h : Hereditary P) (hTs : ∀ T ∈ Ts, P T) : P (.join Ts) := by
  unfold Tree.join
  split
  · rename_i hunknown
    exact hTs _ hunknown
  · split
    · exact h.all
    · refine h.ofMembers fun M hM => ?_
      obtain ⟨T, hT, hM⟩ := List.mem_flatMap.1 (mem_normalize.1 hM)
      exact h.members (hTs T hT) M hM

theorem apply (h : Hereditary P) (hB : P B) (hTs : ∀ T ∈ Ts, P T) : P (B.apply Ts) := by
  unfold Tree.apply
  split
  · exact h.applied_iff.2 ⟨hB, hTs⟩
  · exact hB

end Hereditary

theorem hereditary_true : Hereditary fun _ => True :=
  ⟨trivial, trivial, by simp, by simp⟩

end Tree

namespace Store

variable {s s' : Store} {P : Tree → Prop} {t : TypeId}

/-- The handle leads to a type of the store, and the type has the property. -/
def HasIn (s : Store) (P : Tree → Prop) (t : TypeId) : Prop := ∃ T, s.Reads t T ∧ P T

theorem HasIn.mono (h : s.HasIn P t) (hle : s ≤ s') : s'.HasIn P t := by
  obtain ⟨T, hT, hP⟩ := h
  exact ⟨T, hT.mono hle, hP⟩

/-- The handles that names stand for lead to types with the property. -/
def HoldsIn (s : Store) (P : Tree → Prop) (found : Name → Option TypeId) : Prop :=
  ∀ name t, found name = some t → s.HasIn P t

theorem HoldsIn.mono {found : Name → Option TypeId} (h : s.HoldsIn P found) (hle : s ≤ s') :
    s'.HoldsIn P found := fun name t ht => (h name t ht).mono hle

theorem HoldsIn.extend {scope : Scope} (h : s.HoldsIn P scope.lookup?) (param : Name)
    (ht : s.HasIn P t) : s.HoldsIn P (scope.extend [(param, t)]).lookup? :=
  Scope.forall_lookup?_extend_single h ht

theorem exists_trees_in {ts : List TypeId} (hts : ∀ t ∈ ts, s.HasIn P t) :
    ∃ Ts, List.Forall₂ s.Reads ts Ts ∧ ∀ T ∈ Ts, P T := by
  obtain ⟨Ts, hTs⟩ := exists_forall₂ hts
  refine ⟨Ts, hTs.imp fun _ _ h => h.1, fun T hT => ?_⟩
  obtain ⟨t, -, -, hP⟩ := exists_mem_left hTs hT
  exact hP

namespace WellFormed

theorem hasIn_unknown (h : s.WellFormed) (hP : P .unknown) : s.HasIn P .unknown :=
  ⟨.unknown, h.reads_unknown, hP⟩

theorem exists_members_in (h : s.WellFormed) (hP : Tree.Hereditary P) (ht : s.HasIn P t) :
    ∃ ms, s.members t = .ok ms ∧ ∀ m ∈ ms, s.HasIn P m := by
  obtain ⟨T, hT, hPT⟩ := ht
  obtain ⟨ms, Ms, hms, hMs, hperm⟩ := h.reads_members hT
  refine ⟨ms, hms, fun m hm => ?_⟩
  obtain ⟨M, hM, hread⟩ := exists_mem_right hMs hm
  exact ⟨M, hread, hP.members hPT M (hperm.mem_iff.1 hM)⟩

theorem exists_base?_in (h : s.WellFormed) (hP : Tree.Hereditary P) (ht : s.HasIn P t) :
    ∃ b, s.base? t = .ok b ∧ ∀ base, b = some base → s.HasIn P base := by
  obtain ⟨T, hT, hPT⟩ := ht
  obtain ⟨b, hb, hB⟩ := h.reads_base? hT
  refine ⟨b, hb, fun base hbase => ?_⟩
  subst hbase
  generalize hTB : T.base? = B at hB
  cases hB with
  | some hB => exact ⟨_, hB, hP.base? hPT hTB⟩

theorem exists_args_in (h : s.WellFormed) (hP : Tree.Hereditary P) (ht : s.HasIn P t) :
    ∃ args, s.args t = .ok args ∧ ∀ arg ∈ args, s.HasIn P arg := by
  obtain ⟨T, hT, hPT⟩ := ht
  obtain ⟨args, hargs, hA⟩ := h.reads_args hT
  refine ⟨args, hargs, fun arg harg => ?_⟩
  obtain ⟨A, hA, hread⟩ := exists_mem_right hA harg
  exact ⟨A, hread, hP.args hPT A hA⟩

end WellFormed

end Store

end TypeCalculus
