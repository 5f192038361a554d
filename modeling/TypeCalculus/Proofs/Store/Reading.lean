import Mathlib.Data.List.Nodup
import TypeCalculus.Proofs.Store.WellFormed
import TypeCalculus.Proofs.Tree

/-!
The tree of a stored type, read off the shapes of the type and of its parts. A well-formed store
reads every type it holds, and two handles are equal exactly when their trees are.
-/

namespace TypeCalculus

theorem mapM_eq_ok_iff {ε α β : Type} {f : α → Except ε β} {as : List α} {bs : List β} :
    as.mapM f = .ok bs ↔ List.Forall₂ (fun a b => f a = .ok b) as bs := by
  induction as generalizing bs with
  | nil => rw [List.mapM_nil, pure_eq_ok_iff, List.forall₂_nil_left_iff, eq_comm]
  | cons a as ih =>
    simp only [List.mapM_cons, bind_eq_ok_iff, pure_eq_ok_iff, List.forall₂_cons_left_iff, ih]
    constructor
    · rintro ⟨b, hb, bs, hbs, rfl⟩
      exact ⟨b, bs, hb, hbs, rfl⟩
    · rintro ⟨b, bs, hb, hbs, rfl⟩
      exact ⟨b, hb, bs, hbs, rfl⟩

theorem mapM_congr_of_mem {m : Type → Type} [Monad m] [LawfulMonad m] {α β : Type} {f g : α → m β}
    {as : List α} (h : ∀ a ∈ as, f a = g a) : as.mapM f = as.mapM g := by
  induction as with
  | nil => rfl
  | cons a as ih =>
    rw [List.mapM_cons, List.mapM_cons, h a List.mem_cons_self,
      ih fun b hb => h b (List.mem_cons_of_mem _ hb)]

theorem exists_forall₂ {α β : Type} {R : α → β → Prop} {as : List α}
    (h : ∀ a ∈ as, ∃ b, R a b) : ∃ bs, List.Forall₂ R as bs := by
  induction as with
  | nil => exact ⟨[], .nil⟩
  | cons a as ih =>
    obtain ⟨b, hb⟩ := h a List.mem_cons_self
    obtain ⟨bs, hbs⟩ := ih fun a ha => h a (List.mem_cons_of_mem _ ha)
    exact ⟨b :: bs, .cons hb hbs⟩

theorem exists_mem_right {α β : Type} {R : α → β → Prop} {as : List α} {bs : List β}
    (h : List.Forall₂ R as bs) {a : α} (ha : a ∈ as) : ∃ b ∈ bs, R a b := by
  induction h with
  | nil => cases ha
  | cons hr _ ih =>
    rcases List.mem_cons.1 ha with rfl | ha
    · exact ⟨_, List.mem_cons_self, hr⟩
    · obtain ⟨b, hb, hr⟩ := ih ha
      exact ⟨b, List.mem_cons_of_mem _ hb, hr⟩

theorem exists_forall₂_of_subset {α β : Type} {R : α → β → Prop} {as as' : List α} {bs : List β}
    (h : List.Forall₂ R as bs) (hsub : ∀ a ∈ as', a ∈ as) : ∃ bs', List.Forall₂ R as' bs' := by
  refine exists_forall₂ fun a ha => ?_
  obtain ⟨b, -, hb⟩ := exists_mem_right h (hsub a ha)
  exact ⟨b, hb⟩

theorem exists_mem_left {α β : Type} {R : α → β → Prop} {as : List α} {bs : List β}
    (h : List.Forall₂ R as bs) {b : β} (hb : b ∈ bs) : ∃ a ∈ as, R a b :=
  exists_mem_right h.flip hb

theorem mem_right_iff_of_forall₂ {α β : Type} {R : α → β → Prop} (hR : Relator.RightUnique R)
    {as : List α} {bs : List β} (h : List.Forall₂ R as bs) {b : β} :
    b ∈ bs ↔ ∃ a ∈ as, R a b := by
  constructor
  · exact exists_mem_left h
  · rintro ⟨a, ha, hr⟩
    obtain ⟨b', hb', hr'⟩ := exists_mem_right h ha
    rwa [hR hr hr']

theorem forall_mem_iff_of_forall₂ {α β : Type} {R : α → β → Prop} {P : α → Prop} {Q : β → Prop}
    {as : List α} {bs : List β} (h : List.Forall₂ R as bs)
    (hPQ : ∀ a ∈ as, ∀ b, R a b → (P a ↔ Q b)) : (∀ a ∈ as, P a) ↔ ∀ b ∈ bs, Q b := by
  constructor
  · intro hP b hb
    obtain ⟨a, ha, hr⟩ := exists_mem_left h hb
    exact (hPQ a ha b hr).1 (hP a ha)
  · intro hQ a ha
    obtain ⟨b, hb, hr⟩ := exists_mem_right h ha
    exact (hPQ a ha b hr).2 (hQ b hb)

theorem exists_mem_iff_of_forall₂ {α β : Type} {R : α → β → Prop} {P : α → Prop} {Q : β → Prop}
    {as : List α} {bs : List β} (h : List.Forall₂ R as bs)
    (hPQ : ∀ a ∈ as, ∀ b, R a b → (P a ↔ Q b)) : (∃ a ∈ as, P a) ↔ ∃ b ∈ bs, Q b := by
  constructor
  · rintro ⟨a, ha, hP⟩
    obtain ⟨b, hb, hr⟩ := exists_mem_right h ha
    exact ⟨b, hb, (hPQ a ha b hr).1 hP⟩
  · rintro ⟨b, hb, hQ⟩
    obtain ⟨a, ha, hr⟩ := exists_mem_left h hb
    exact ⟨a, ha, (hPQ a ha b hr).2 hQ⟩

theorem eq_of_forall₂ {α β : Type} {R : α → β → Prop} {as bs : List α} {cs : List β}
    (hR : ∀ a ∈ as, ∀ b c, R a c → R b c → a = b) (ha : List.Forall₂ R as cs)
    (hb : List.Forall₂ R bs cs) : as = bs := by
  induction ha generalizing bs with
  | nil => exact (List.forall₂_nil_right_iff.1 hb).symm
  | cons hac _ ih =>
    obtain ⟨b, bs, hbc, hbs, rfl⟩ := List.forall₂_cons_right_iff.1 hb
    rw [hR _ List.mem_cons_self b _ hac hbc, ih (fun a ha => hR a (List.mem_cons_of_mem _ ha)) hbs]

namespace Shape

/-- The tree of a shape, given how its parts are read. -/
def treeBy (read : TypeId → Except Fault Tree) : Shape → Except Fault Tree
  | unknown => .ok .unknown
  | all => .ok .all
  | empty => .ok .empty
  | named name => .ok (.named name)
  | union members => do return .union (normalize (← members.mapM read))
  | applied base args => do return .applied (← read base) (← args.mapM read)

/-- The shape stands for the tree if its parts stand for trees by `R`. -/
def Spells (R : TypeId → Tree → Prop) : Shape → Tree → Prop
  | unknown, T => T = .unknown
  | all, T => T = .all
  | empty, T => T = .empty
  | named name, T => T = .named name
  | union members, T => ∃ Ts, List.Forall₂ R members Ts ∧ T = .union (normalize Ts)
  | applied base args, T => ∃ B As, R base B ∧ List.Forall₂ R args As ∧ T = .applied B As

theorem treeBy_congr {shape : Shape} {read read' : TypeId → Except Fault Tree}
    (h : ∀ part ∈ shape.parts, read part = read' part) : shape.treeBy read = shape.treeBy read' := by
  cases shape with
  | unknown | all | empty | named => rfl
  | union members =>
    have hm : members.mapM read = members.mapM read' := mapM_congr_of_mem h
    simp only [treeBy, hm]
  | applied base args =>
    have hb : read base = read' base := h base List.mem_cons_self
    have ha : args.mapM read = args.mapM read' :=
      mapM_congr_of_mem fun a ha => h a (List.mem_cons_of_mem _ ha)
    simp only [treeBy, hb, ha]

theorem treeBy_eq_ok_iff {shape : Shape} {read : TypeId → Except Fault Tree} {T : Tree} :
    shape.treeBy read = .ok T ↔ shape.Spells (fun t T => read t = .ok T) T := by
  cases shape with
  | unknown | all | empty | named => exact pure_eq_ok_iff.trans eq_comm
  | union members =>
    simp only [treeBy, Spells, bind_eq_ok_iff, pure_eq_ok_iff, mapM_eq_ok_iff]
    exact exists_congr fun Ts => and_congr_right fun _ => eq_comm
  | applied base args =>
    simp only [treeBy, Spells, bind_eq_ok_iff, pure_eq_ok_iff, mapM_eq_ok_iff]
    constructor
    · rintro ⟨B, hB, As, hAs, rfl⟩
      exact ⟨B, As, hB, hAs, rfl⟩
    · rintro ⟨B, As, hB, hAs, rfl⟩
      exact ⟨B, hB, As, hAs, rfl⟩

theorem Spells.mono {shape : Shape} {R R' : TypeId → Tree → Prop} {T : Tree}
    (h : shape.Spells R T) (hR : ∀ part T, R part T → R' part T) : shape.Spells R' T := by
  cases shape with
  | unknown | all | empty | named => exact h
  | union members =>
    obtain ⟨Ts, hTs, hT⟩ := h
    exact ⟨Ts, hTs.imp hR, hT⟩
  | applied base args =>
    obtain ⟨B, As, hB, hAs, hT⟩ := h
    exact ⟨B, As, hR base B hB, hAs.imp hR, hT⟩

theorem Spells.of_named {shape : Shape} {R : TypeId → Tree → Prop} {name : Name}
    (h : shape.Spells R (.named name)) : shape = .named name := by
  cases shape with
  | named => rw [Tree.named.inj h]
  | union members =>
    obtain ⟨Ts, -, heq⟩ := h
    cases heq
  | applied base args =>
    obtain ⟨B, As, -, -, heq⟩ := h
    cases heq
  | unknown | all | empty => cases h

theorem Spells.of_union {shape : Shape} {R : TypeId → Tree → Prop} {Ms : List Tree}
    (h : shape.Spells R (.union Ms)) :
    ∃ members Ts, shape = .union members ∧ List.Forall₂ R members Ts ∧ Ms = normalize Ts := by
  cases shape with
  | union members =>
    obtain ⟨Ts, hTs, heq⟩ := h
    exact ⟨members, Ts, rfl, hTs, Tree.union.inj heq⟩
  | applied base args =>
    obtain ⟨B, As, -, -, heq⟩ := h
    cases heq
  | unknown | all | empty | named => cases h

theorem Spells.of_applied {shape : Shape} {R : TypeId → Tree → Prop} {B : Tree} {As : List Tree}
    (h : shape.Spells R (.applied B As)) :
    ∃ base args, shape = .applied base args ∧ R base B ∧ List.Forall₂ R args As := by
  cases shape with
  | applied base args =>
    obtain ⟨B, As, hB, hAs, heq⟩ := h
    cases heq
    exact ⟨base, args, rfl, hB, hAs⟩
  | union members =>
    obtain ⟨Ts, -, heq⟩ := h
    cases heq
  | unknown | all | empty | named => cases h

theorem exists_spells {shape : Shape} {R : TypeId → Tree → Prop}
    (h : ∀ part ∈ shape.parts, ∃ T, R part T) : ∃ T, shape.Spells R T := by
  cases shape with
  | unknown | all | empty | named => exact ⟨_, rfl⟩
  | union members =>
    obtain ⟨Ts, hTs⟩ := exists_forall₂ h
    exact ⟨_, Ts, hTs, rfl⟩
  | applied base args =>
    obtain ⟨B, hB⟩ := h base List.mem_cons_self
    obtain ⟨As, hAs⟩ := exists_forall₂ fun a ha => h a (List.mem_cons_of_mem _ ha)
    exact ⟨_, B, As, hB, hAs, rfl⟩

end Shape

namespace Store

theorem exists_shape_of_lt_size {s : Store} {t : TypeId} (ht : t.index < s.size) :
    ∃ shape, s.shape t = .ok shape := by
  obtain ⟨e, he⟩ := exists_entry_of_lt_size ht
  exact ⟨e.shape, shape_eq_ok_iff.2 ⟨e.traits, he⟩⟩

/-- The tree of `t`, as long as `fuel` covers the nesting. -/
def treeWithin (s : Store) : Nat → TypeId → Except Fault Tree
  | 0, t => .error (.danglingType t)
  | fuel + 1, t => do (← s.shape t).treeBy (treeWithin s fuel)

/-- The tree of the type `t`. Parts have smaller indices than what they are parts of. -/
def tree (s : Store) (t : TypeId) : Except Fault Tree := s.treeWithin (t.index + 1) t

/-- The type `t` of the store has the tree `T`. -/
abbrev Reads (s : Store) (t : TypeId) (T : Tree) : Prop := s.tree t = .ok T

variable {s s' : Store} {t : TypeId} {T : Tree} {shape : Shape}

theorem Lasting.treeWithin (fuel : Nat) (t : TypeId) : Lasting (·.treeWithin fuel t) := by
  induction fuel generalizing t with
  | zero => exact error _
  | succ fuel ih =>
    refine (Lasting.shape t).bind fun shape => ?_
    cases shape with
    | unknown | all | empty | named => exact pure _
    | union members => exact (mapM ih members).map fun Ts => Tree.union (normalize Ts)
    | applied base args =>
      exact (ih base).bind fun B => (mapM ih args).map fun As => Tree.applied B As

theorem Lasting.tree (t : TypeId) : Lasting (·.tree t) := Lasting.treeWithin _ t

theorem Reads.mono (h : s.Reads t T) (hle : s ≤ s') : s'.Reads t T := Lasting.tree t hle h

theorem forall₂_reads_mono {ts : List TypeId} {Ts : List Tree} (h : List.Forall₂ s.Reads ts Ts)
    (hle : s ≤ s') : List.Forall₂ s'.Reads ts Ts := h.imp fun _ _ h => h.mono hle

namespace WellFormed

/-- Parts come before what they are part of, so what holds of a type whenever it holds of its parts
holds of every type. -/
theorem induction {motive : TypeId → Prop} (h : s.WellFormed)
    (step : ∀ t, (∀ shape, s.shape t = .ok shape → ∀ part ∈ shape.parts, motive part) → motive t)
    (t : TypeId) : motive t := by
  obtain ⟨i⟩ := t
  induction i using Nat.strongRecOn with
  | _ i ih => exact step ⟨i⟩ fun shape hs part hp => ih part.index (h.parts_lt hs part hp)

theorem treeWithin_eq (h : s.WellFormed) (t : TypeId) {fuel : Nat} (hf : t.index < fuel) :
    s.treeWithin fuel t = s.tree t := by
  induction t using h.induction generalizing fuel with
  | step t ih =>
    obtain ⟨fuel, rfl⟩ := Nat.exists_eq_add_of_lt hf
    unfold tree treeWithin
    cases hs : s.shape t with
    | error f => rfl
    | ok shape =>
      refine Shape.treeBy_congr fun part hp => ?_
      -- The parts are read with as much fuel as is left, and by themselves with what they need.
      have hlt : part.index < t.index := h.parts_lt hs part hp
      have hmore := ih shape hs part hp (Nat.lt_add_right fuel hlt)
      have hjust := ih shape hs part hp hlt
      exact hmore.trans hjust.symm

theorem reads_iff (h : s.WellFormed) :
    s.Reads t T ↔ ∃ shape, s.shape t = .ok shape ∧ shape.Spells s.Reads T := by
  change s.treeWithin (t.index + 1) t = .ok T ↔ _
  unfold treeWithin
  rw [bind_eq_ok_iff]
  refine exists_congr fun shape => and_congr_right fun hs => ?_
  rw [Shape.treeBy_congr fun part hp => h.treeWithin_eq part (h.parts_lt hs part hp)]
  exact Shape.treeBy_eq_ok_iff

theorem lt_size_of_reads (h : s.WellFormed) (ht : s.Reads t T) : t.index < s.size := by
  obtain ⟨shape, hs, -⟩ := h.reads_iff.1 ht
  obtain ⟨traits, he⟩ := shape_eq_ok_iff.1 hs
  exact lt_size_of_entry he

theorem pairwise_members (h : s.WellFormed) {members : List TypeId}
    (hs : s.shape t = .ok (.union members)) :
    members.Pairwise fun a b => compare a b = .lt :=
  (h.normal hs).2.1.imp fun hlt => TypeId.compare_eq_lt.2 hlt

theorem exists_reads (h : s.WellFormed) (t : TypeId) (ht : t.index < s.size) :
    ∃ T, s.Reads t T := by
  induction t using h.induction with
  | step t ih =>
    obtain ⟨shape, hs⟩ := exists_shape_of_lt_size ht
    have hpart : ∀ part ∈ shape.parts, ∃ T, s.Reads part T := fun part hp =>
      ih shape hs part hp (Nat.lt_trans (h.parts_lt hs part hp) ht)
    obtain ⟨T, hT⟩ := Shape.exists_spells hpart
    exact ⟨T, h.reads_iff.2 ⟨shape, hs, hT⟩⟩

theorem reads_injective (h : s.WellFormed) {a b : TypeId} {T : Tree} (ha : s.Reads a T)
    (hb : s.Reads b T) : a = b := by
  induction a using h.induction generalizing b T with
  | step a ih =>
    obtain ⟨sa, hsa, hTa⟩ := h.reads_iff.1 ha
    obtain ⟨sb, hsb, hTb⟩ := h.reads_iff.1 hb
    have hpart : ∀ part ∈ sa.parts, ∀ b' T, s.Reads part T → s.Reads b' T → part = b' :=
      fun part hp b' T hp' hb' => ih sa hsa part hp hp' hb'
    suffices hshape : sa = sb from h.eq_of_shape hsa (hshape ▸ hsb)
    cases sa with
    | union ms =>
      obtain ⟨As, hAs, rfl⟩ := hTa
      obtain ⟨ns, Bs, rfl, hBs, heq⟩ := hTb.of_union
      -- Both shapes list their members in ascending order, so it is enough that they have the same.
      have hmem : ∀ A, A ∈ As ↔ A ∈ Bs := normalize_eq_iff.1 heq
      have hsame : ∀ t, t ∈ ms ↔ t ∈ ns := by
        intro t
        constructor
        · intro ht
          obtain ⟨A, hA, hr⟩ := exists_mem_right hAs ht
          obtain ⟨n, hn, hr'⟩ := exists_mem_left hBs ((hmem A).1 hA)
          rwa [hpart t ht n A hr hr']
        · intro ht
          obtain ⟨B, hB, hr⟩ := exists_mem_right hBs ht
          obtain ⟨m, hm, hr'⟩ := exists_mem_left hAs ((hmem B).2 hB)
          rwa [← hpart m hm t B hr' hr]
      have hms : ms = ns :=
        eq_of_pairwise_lt (h.pairwise_members hsa) (h.pairwise_members hsb) hsame
      rw [hms]
    | applied base args =>
      obtain ⟨B, As, hB, hAs, rfl⟩ := hTa
      obtain ⟨base', args', rfl, hB', hAs'⟩ := hTb.of_applied
      have hbase : base = base' := hpart base List.mem_cons_self base' B hB hB'
      have hargs : args = args' := eq_of_forall₂
        (fun a ha b T => hpart a (List.mem_cons_of_mem _ ha) b T) hAs hAs'
      rw [hbase, hargs]
    | unknown | all | empty | named =>
      cases hTa
      cases sb with
      | union ns =>
        obtain ⟨Bs, -, heq⟩ := hTb
        cases heq
      | applied base args =>
        obtain ⟨B, As, -, -, heq⟩ := hTb
        cases heq
      | _ => cases hTb <;> rfl

theorem reads_unknown (h : s.WellFormed) : s.Reads .unknown .unknown :=
  h.reads_iff.2 ⟨_, h.unknown.2 rfl, rfl⟩

theorem reads_all (h : s.WellFormed) : s.Reads .all .all := h.reads_iff.2 ⟨_, h.all.2 rfl, rfl⟩

theorem reads_empty (h : s.WellFormed) : s.Reads .empty .empty :=
  h.reads_iff.2 ⟨_, h.empty.2 rfl, rfl⟩

theorem eq_iff (h : s.WellFormed) {a b : TypeId} {A B : Tree} (ha : s.Reads a A)
    (hb : s.Reads b B) : a = b ↔ A = B := by
  constructor
  · rintro rfl
    exact Except.ok.inj (ha.symm.trans hb)
  · rintro rfl
    exact h.reads_injective ha hb

theorem reads_biUnique (h : s.WellFormed) : Relator.BiUnique s.Reads :=
  ⟨fun _ _ _ ha hb => h.reads_injective ha hb, fun _ _ _ hA hB => Except.ok.inj (hA.symm.trans hB)⟩

/-- The members of a type have the members of its tree as their trees, in whatever order. -/
theorem reads_members (h : s.WellFormed) (ht : s.Reads t T) :
    ∃ ms Ts, s.members t = .ok ms ∧ List.Forall₂ s.Reads ms Ts ∧ Ts.Perm T.members := by
  obtain ⟨shape, hs, hT⟩ := h.reads_iff.1 ht
  cases shape with
  | union ms =>
    obtain ⟨Ts, hTs, rfl⟩ := hT
    have hms : s.members t = .ok ms := bind_eq_ok_iff.2 ⟨_, hs, rfl⟩
    refine ⟨ms, Ts, hms, hTs, ?_⟩
    -- Different handles have different trees, so no member is lost when the trees are put in order.
    have hnodup : Ts.Nodup :=
      (List.rel_nodup h.reads_biUnique hTs).1 (nodup_of_pairwise_lt (h.pairwise_members hs))
    have hnodup' : (normalize Ts).Nodup := nodup_of_pairwise_lt (pairwise_normalize Ts)
    exact (List.perm_ext_iff_of_nodup hnodup hnodup').2 fun A => mem_normalize.symm
  | empty =>
    cases hT
    exact ⟨[], [], bind_eq_ok_iff.2 ⟨_, hs, rfl⟩, .nil, .nil⟩
  | unknown | all | named =>
    cases hT
    exact ⟨[t], _, bind_eq_ok_iff.2 ⟨_, hs, rfl⟩, .cons ht .nil, .refl _⟩
  | applied base args =>
    obtain ⟨B, As, -, -, rfl⟩ := hT
    exact ⟨[t], _, bind_eq_ok_iff.2 ⟨_, hs, rfl⟩, .cons ht .nil, .refl _⟩

theorem reads_base? (h : s.WellFormed) (ht : s.Reads t T) :
    ∃ b, s.base? t = .ok b ∧ Option.Rel s.Reads b T.base? := by
  obtain ⟨shape, hs, hT⟩ := h.reads_iff.1 ht
  refine ⟨_, bind_eq_ok_iff.2 ⟨shape, hs, rfl⟩, ?_⟩
  cases shape with
  | applied base args =>
    obtain ⟨B, As, hB, -, rfl⟩ := hT
    exact .some hB
  | union ms =>
    obtain ⟨Ts, -, rfl⟩ := hT
    exact .none
  | unknown | all | empty | named =>
    cases hT
    exact .none

theorem reads_args (h : s.WellFormed) (ht : s.Reads t T) :
    ∃ args, s.args t = .ok args ∧ List.Forall₂ s.Reads args T.args := by
  obtain ⟨shape, hs, hT⟩ := h.reads_iff.1 ht
  refine ⟨_, bind_eq_ok_iff.2 ⟨shape, hs, rfl⟩, ?_⟩
  cases shape with
  | applied base args =>
    obtain ⟨B, As, -, hAs, rfl⟩ := hT
    exact hAs
  | union ms =>
    obtain ⟨Ts, -, rfl⟩ := hT
    exact .nil
  | unknown | all | empty | named =>
    cases hT
    exact .nil

theorem reads_kind (h : s.WellFormed) (ht : s.Reads t T) : ∃ kind, s.kind t = .ok kind ∧
    (kind = .named ↔ T.isNamed = true) ∧ (kind = .applied ↔ T.isApplied = true) := by
  obtain ⟨shape, hs, hT⟩ := h.reads_iff.1 ht
  refine ⟨_, bind_eq_ok_iff.2 ⟨shape, hs, rfl⟩, ?_⟩
  cases shape with
  | applied base args =>
    obtain ⟨B, As, -, hAs, rfl⟩ := hT
    simp [Shape.kind, Tree.isNamed, Tree.isApplied]
  | union ms =>
    obtain ⟨Ts, -, rfl⟩ := hT
    simp [Shape.kind, Tree.isNamed, Tree.isApplied]
  | unknown | all | empty | named =>
    cases hT
    simp [Shape.kind, Tree.isNamed, Tree.isApplied]

end WellFormed

theorem Reachable.exists_reads (h : s.Reachable) (ht : t.index < s.size) : ∃ T, s.Reads t T :=
  h.wellFormed.exists_reads t ht

/-- Every type of a store has one tree, and two handles are equal exactly when their trees are. As
trees list the members of a union in normal form, the order of the members plays no part
(`normalize_eq_iff`). -/
theorem Reachable.eq_iff_tree_eq (h : s.Reachable) {a b : TypeId} (ha : a.index < s.size)
    (hb : b.index < s.size) : ∃ A B, s.tree a = .ok A ∧ s.tree b = .ok B ∧ (a = b ↔ A = B) := by
  obtain ⟨A, hA⟩ := h.exists_reads ha
  obtain ⟨B, hB⟩ := h.exists_reads hb
  exact ⟨A, B, hA, hB, h.wellFormed.eq_iff hA hB⟩

/-- `(A|B)` and `(B|A<?>)` are two types. -/
theorem sampleTypes_eq_iff_tree_eq : ∃ A B, sampleTypes.tree ⟨5⟩ = .ok A ∧
    sampleTypes.tree ⟨8⟩ = .ok B ∧ ((⟨5⟩ : TypeId) = ⟨8⟩ ↔ A = B) :=
  sampleTypes_reachable.eq_iff_tree_eq (by decide) (by decide)

end Store

end TypeCalculus
