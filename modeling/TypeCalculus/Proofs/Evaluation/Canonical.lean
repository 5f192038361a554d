import TypeCalculus.Proofs.Evaluation.Denotation
import TypeCalculus.Proofs.Store.Unions

/-!
Normal form all the way down. The trees of stored types and of all their parts are in normal form,
and the rules of the language keep to such trees: what an expression denotes is in normal form as
soon as what the names stand for is.
-/

namespace TypeCalculus

namespace Tree

def parts : Tree → List Tree
  | union members => members
  | applied base args => base :: args
  | _ => []

/-- In normal form, and so are the parts and their parts. -/
inductive Canonical : Tree → Prop where
  | intro {t} : t.Normal → (∀ part ∈ t.parts, Canonical part) → Canonical t

namespace Canonical

variable {t u : Tree} {ts : List Tree}

theorem normal (h : t.Canonical) : t.Normal := by
  cases h with
  | intro hnormal _ => exact hnormal

theorem of_mem_parts (h : t.Canonical) (hu : u ∈ t.parts) : u.Canonical := by
  cases h with
  | intro _ hparts => exact hparts u hu

theorem unknown : Canonical unknown := .intro .unknown (by simp [parts])

theorem all : Canonical all := .intro .all (by simp [parts])

theorem empty : Canonical empty := .intro .empty (by simp [parts])

theorem of_mem_members (h : t.Canonical) (hu : u ∈ t.members) : u.Canonical := by
  cases t with
  | union ms => exact h.of_mem_parts hu
  | empty => cases hu
  | unknown | all | named | applied =>
    rw [List.mem_singleton.1 hu]
    exact h

theorem of_members (hn : t.Normal) (h : ∀ m ∈ t.members, m.Canonical) : t.Canonical := by
  cases t with
  | union ms => exact .intro hn h
  | empty => exact empty
  | unknown | all | named | applied => exact h _ (List.mem_singleton.2 rfl)

theorem join (h : ∀ t ∈ ts, t.Canonical) : (join ts).Canonical := by
  have hnormal : ∀ t ∈ ts, t.Normal := fun t ht => (h t ht).normal
  by_cases hu : Tree.unknown ∈ ts
  · rw [join_of_unknown_mem hu]
    exact unknown
  · by_cases hall : Tree.all ∈ ts
    · rw [join_of_all_mem hnormal hu hall]
      exact all
    · refine of_members (normal_join hnormal) fun m hm => ?_
      obtain ⟨t, ht, hmt⟩ := List.mem_flatMap.1 ((mem_members_join hnormal hu hall).1 hm)
      exact (h t ht).of_mem_members hmt

theorem apply (h : t.Canonical) (hts : ∀ t ∈ ts, t.Canonical) : (t.apply ts).Canonical := by
  unfold Tree.apply
  split
  · rename_i hnamed
    cases t with
    | named name =>
      exact .intro (.atom (.applied name ts)) (List.forall_mem_cons.2 ⟨h, hts⟩)
    | _ => simp [isNamed] at hnamed
  · exact h

theorem base? (h : t.Canonical) : (t.base?.getD .unknown).Canonical := by
  cases t with
  | applied base args => exact h.of_mem_parts List.mem_cons_self
  | _ => exact unknown

theorem getElem?_args (h : t.Canonical) (place : Nat) :
    (t.args[place]?.getD .unknown).Canonical := by
  cases harg : t.args[place]? with
  | none => exact unknown
  | some a =>
    have hmem : a ∈ t.args := List.mem_of_getElem? harg
    cases t with
    | applied base args => exact h.of_mem_parts (List.mem_cons_of_mem base hmem)
    | _ => cases hmem

end Canonical

end Tree

/-- All names stand for canonical trees. -/
def Env.Canonical (env : Env) : Prop := ∀ name T, env name = some T → T.Canonical

namespace Env.Canonical

variable {env : Env}

theorem getD (h : Env.Canonical env) (name : Name) : ((env name).getD .unknown).Canonical := by
  cases hT : env name with
  | none => exact .unknown
  | some T => exact h name T hT

theorem update (h : Env.Canonical env) {param : Name} {T : Tree} (hT : T.Canonical) :
    Env.Canonical (Function.update env param (some T)) := Env.forall_update h hT

end Env.Canonical

theorem forall_mem_of_zip {α β : Type} {P : β → Prop} {as : List α} {bs : List β}
    (hl : as.length = bs.length) (h : ∀ p ∈ as.zip bs, P p.2) : ∀ b ∈ bs, P b := by
  have hall : List.Forall₂ (fun _ b => P b) as bs :=
    List.forall₂_iff_zip.2 ⟨hl, fun {a b} hp => h (a, b) hp⟩
  intro b hb
  obtain ⟨a, -, hP⟩ := exists_mem_left hall hb
  exact hP

/-- The rules of the language lead from canonical trees to canonical trees. -/
theorem Setting.Denotes.canonical {st : Setting} {env : Env} {id : NodeId} {T : Tree}
    (h : st.Denotes env id T) (hd : Env.Canonical st.declared?) (henv : Env.Canonical env) :
    T.Canonical := by
  induction h with
  | var => exact henv.getD _
  | empty => exact .empty
  | all => exact .all
  | unknown => exact .unknown
  | named _ _ hl _ ih =>
    exact (hd.getD _).apply (forall_mem_of_zip hl fun p hp => ih p hp henv)
  | union _ _ hl _ ih => exact .join (forall_mem_of_zip hl fun p hp => ih p hp henv)
  | condEq _ _ _ _ _ _ _ ih => exact ih henv
  | condSub _ _ _ _ _ _ _ ih => exact ih henv
  | condIsTemplatized _ _ _ _ _ ih => exact ih henv
  | condIsUnknown _ _ _ _ _ ih => exact ih henv
  | mapUnion _ _ _ hl _ ihS ih =>
    -- The body is evaluated where the parameter stands for a member of the source.
    refine .join (forall_mem_of_zip hl fun p hp => ih p hp (henv.update ?_))
    exact (ihS henv).of_mem_members (List.of_mem_zip hp).1
  | rawTypeOf _ _ ih => exact (ih henv).base?
  | templateTypeOf _ _ _ ih => exact (ih henv).getElem?_args _

namespace Store.WellFormed

variable {s : Store} {t : TypeId} {T : Tree}

theorem reads_canonical (h : s.WellFormed) (ht : s.Reads t T) : T.Canonical := by
  induction t using h.induction generalizing T with
  | step t ih =>
    have hnormal := h.reads_normal ht
    obtain ⟨shape, hs, hT⟩ := h.reads_iff.1 ht
    have hpart : ∀ part ∈ shape.parts, ∀ P, s.Reads part P → P.Canonical :=
      fun part hp P hP => ih shape hs part hp hP
    cases shape with
    | unknown | all | empty | named =>
      cases hT
      exact .intro hnormal (by simp [Tree.parts])
    | union members =>
      obtain ⟨Ts, hTs, rfl⟩ := hT
      refine .intro hnormal fun P hP => ?_
      obtain ⟨m, hm, hr⟩ := exists_mem_left hTs (mem_normalize.1 hP)
      exact hpart m hm P hr
    | applied base args =>
      obtain ⟨B, As, hB, hAs, rfl⟩ := hT
      refine .intro hnormal fun P hP => ?_
      obtain ⟨part, hp, hr⟩ := exists_mem_left (List.Forall₂.cons hB hAs) hP
      exact hpart part hp P hr

theorem canonical_of_binds (h : s.WellFormed) {found : Name → Option TypeId} {env : Env}
    (hb : s.Binds found env) : Env.Canonical env := by
  intro name T hT
  have hname := hb name
  rw [hT] at hname
  generalize found name = t at hname
  cases hname with
  | some ht => exact h.reads_canonical ht

end Store.WellFormed

end TypeCalculus
