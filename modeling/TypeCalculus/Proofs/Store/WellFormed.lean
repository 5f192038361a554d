import TypeCalculus.Proofs.History

/-!
The invariant of stores. In every store that comes about the three sentinels are in their places,
the directory is the inverse of the entries, parts come before what they are parts of, and what is
stored is in normal form.
-/

namespace TypeCalculus

namespace Store

variable {s s' : Store} {t : TypeId} {e : Entry} {shape : Shape} {traits : Traits}

/-- The normal form of a shape whose parts are in the store. -/
def Normal (s : Store) : Shape → Prop
  | .union members => 2 ≤ members.length ∧ members.Pairwise (· < ·) ∧
      ∀ m ∈ members, s.kind m = .ok .named ∨ s.kind m = .ok .applied
  | .applied base args => s.kind base = .ok .named ∧ args ≠ []
  | _ => True

structure WellFormed (s : Store) : Prop where
  unknown : ∀ {t}, s.shape t = .ok .unknown ↔ t = .unknown
  all : ∀ {t}, s.shape t = .ok .all ↔ t = .all
  empty : ∀ {t}, s.shape t = .ok .empty ↔ t = .empty
  /-- The directory leads from each stored shape to its place, and from no other shape anywhere. -/
  directory : ∀ {shape : Shape} {t}, s.directory[shape]? = some t ↔ s.shape t = .ok shape
  parts_lt : ∀ {t shape}, s.shape t = .ok shape → ∀ part ∈ shape.parts, part < t
  normal : ∀ {t shape}, s.shape t = .ok shape → s.Normal shape
  /-- The traits of a type are those that its parts give it. -/
  traits : ∀ {t e}, s.entry t = .ok e → s.traitsOf e.shape = .ok e.traits

theorem Normal.mono (hle : s ≤ s') (h : s.Normal shape) : s'.Normal shape := by
  cases shape with
  | union members =>
    refine ⟨h.1, h.2.1, fun m hm => ?_⟩
    exact (h.2.2 m hm).imp (Lasting.kind m hle) (Lasting.kind m hle)
  | applied base args => exact ⟨Lasting.kind base hle h.1, h.2⟩
  | unknown | all | empty | named => trivial

theorem lt_size_of_entry (h : s.entry t = .ok e) : t.index < s.size :=
  (Array.getElem?_eq_some_iff.1 (entry_eq_ok_iff.1 h)).choose

theorem exists_entry_of_lt_size (ht : t.index < s.size) : ∃ e, s.entry t = .ok e :=
  ⟨_, entry_eq_ok_iff.2 (Array.getElem?_eq_getElem ht)⟩

theorem entry_push_iff {e' : Entry} :
    (s.push e).entry t = .ok e' ↔ s.entry t = .ok e' ∨ t = ⟨s.size⟩ ∧ e' = e := by
  obtain ⟨i⟩ := t
  simp only [entry_eq_ok_iff, push, Array.getElem?_push, TypeId.mk.injEq, size]
  by_cases hi : i = s.entries.size
  · simp [hi, eq_comm]
  · simp [hi]

theorem shape_push_iff : (s.push e).shape t = .ok shape ↔
    s.shape t = .ok shape ∨ t = ⟨s.size⟩ ∧ shape = e.shape := by
  simp only [shape_eq_ok_iff, entry_push_iff]
  constructor
  · rintro ⟨traits, h | ⟨rfl, rfl⟩⟩
    · exact .inl ⟨traits, h⟩
    · exact .inr ⟨rfl, rfl⟩
  · rintro (⟨traits, h⟩ | ⟨rfl, rfl⟩)
    · exact ⟨traits, .inl h⟩
    · exact ⟨e.traits, .inr ⟨rfl, rfl⟩⟩

theorem directory_push : (s.push e).directory[shape]? =
    if e.shape = shape then some ⟨s.size⟩ else s.directory[shape]? := by
  simp [push, Std.TreeMap.getElem?_insert]

theorem directory_push_iff
    (hd : ∀ {shape : Shape} {t}, s.directory[shape]? = some t ↔ s.shape t = .ok shape)
    (hnew : s.directory[e.shape]? = none) :
    (s.push e).directory[shape]? = some t ↔ (s.push e).shape t = .ok shape := by
  rw [directory_push, shape_push_iff, ← hd]
  split
  · rename_i heq
    subst heq
    simp [hnew, eq_comm]
  · rename_i hne
    simp [Ne.symm hne]

theorem exists_foldlM_inherited_iff {parts : List TypeId} {acc : Traits} :
    (∃ out, parts.foldlM (fun acc part => return acc.join (← s.traits part).inherited) acc = .ok out) ↔
      ∀ part ∈ parts, part.index < s.size := by
  induction parts generalizing acc with
  | nil => exact iff_of_true ⟨acc, rfl⟩ (by simp)
  | cons first rest ih =>
    rw [List.foldlM_cons, List.forall_mem_cons]
    constructor
    · rintro ⟨out, h⟩
      obtain ⟨acc', hacc, h⟩ := bind_eq_ok_iff.1 h
      obtain ⟨traits, ht, -⟩ := bind_eq_ok_iff.1 hacc
      obtain ⟨e, he, -⟩ := bind_eq_ok_iff.1 ht
      exact ⟨lt_size_of_entry he, ih.1 ⟨out, h⟩⟩
    · rintro ⟨hfirst, hrest⟩
      obtain ⟨e, he⟩ := exists_entry_of_lt_size hfirst
      have ht : s.traits first = .ok e.traits := bind_eq_ok_iff.2 ⟨e, he, rfl⟩
      obtain ⟨out, hout⟩ := (@ih (acc.join e.traits.inherited)).2 hrest
      exact ⟨out, bind_eq_ok_iff.2 ⟨_, bind_eq_ok_iff.2 ⟨_, ht, rfl⟩, hout⟩⟩

theorem exists_traitsOf_iff : (∃ traits, s.traitsOf shape = .ok traits) ↔
    ∀ part ∈ shape.parts, part.index < s.size := exists_foldlM_inherited_iff

theorem shape_new_iff : new.shape t = .ok shape ↔
    t = .unknown ∧ shape = .unknown ∨ t = .all ∧ shape = .all ∨ t = .empty ∧ shape = .empty := by
  obtain ⟨i⟩ := t
  match i with
  | 0 | 1 | 2 => simp [new, push, Store.shape, entry, bind, Except.bind, pure, Except.pure,
      TypeId.unknown, TypeId.all, TypeId.empty, eq_comm]
  | i + 3 => simp [new, push, Store.shape, entry, bind, Except.bind, TypeId.unknown, TypeId.all,
      TypeId.empty]

theorem wellFormed_new : new.WellFormed where
  unknown {t} := by simp [shape_new_iff]
  all {t} := by simp [shape_new_iff]
  empty {t} := by simp [shape_new_iff]
  directory := directory_push_iff (directory_push_iff (directory_push_iff
    (by simp [Store.shape, entry, bind, Except.bind]) rfl) rfl) rfl
  parts_lt {t shape} h := by
    rcases shape_new_iff.1 h with ⟨-, rfl⟩ | ⟨-, rfl⟩ | ⟨-, rfl⟩ <;> simp [Shape.parts]
  normal {t shape} h := by
    rcases shape_new_iff.1 h with ⟨-, rfl⟩ | ⟨-, rfl⟩ | ⟨-, rfl⟩ <;> trivial
  traits {t e} h := by
    obtain ⟨i⟩ := t
    rcases i with _ | _ | _ | i
    · cases h; rfl
    · cases h; rfl
    · cases h; rfl
    · cases h

namespace WellFormed

theorem eq_of_shape (h : s.WellFormed) {a b : TypeId} (ha : s.shape a = .ok shape)
    (hb : s.shape b = .ok shape) : a = b := by
  have := (h.directory.2 ha).symm.trans (h.directory.2 hb)
  exact Option.some.inj this

theorem push (h : s.WellFormed) (hnew : s.directory[shape]? = none)
    (ht : s.traitsOf shape = .ok traits) (hn : s.Normal shape) :
    (s.push ⟨shape, traits⟩).WellFormed := by
  have hle : s ≤ s.push ⟨shape, traits⟩ := le_push hnew
  -- What is stored has a place in the directory and the new shape has none, so no sentinel moves.
  have stored {t shape'} (hs : s.shape t = .ok shape') : shape' ≠ shape := by
    rintro rfl
    rw [h.directory.2 hs] at hnew
    cases hnew
  have sentinel {t₀ shape' : _} (hs : ∀ {t}, s.shape t = .ok shape' ↔ t = t₀) {t} :
      (s.push ⟨shape, traits⟩).shape t = .ok shape' ↔ t = t₀ := by
    rw [shape_push_iff, ← hs, or_iff_left_iff_imp]
    rintro ⟨-, rfl⟩
    exact absurd rfl (stored (hs.2 rfl))
  refine ⟨sentinel h.unknown, sentinel h.all, sentinel h.empty,
    directory_push_iff h.directory hnew, ?_, ?_, ?_⟩
  · intro t shape' hs part hp
    rcases shape_push_iff.1 hs with hs | ⟨rfl, rfl⟩
    · exact h.parts_lt hs part hp
    · exact exists_traitsOf_iff.1 ⟨traits, ht⟩ part hp
  · intro t shape' hs
    rcases shape_push_iff.1 hs with hs | ⟨rfl, rfl⟩
    · exact (h.normal hs).mono hle
    · exact hn.mono hle
  · intro t e he
    rcases entry_push_iff.1 he with he | ⟨rfl, rfl⟩
    · exact Lasting.traitsOf _ hle (h.traits he)
    · exact Lasting.traitsOf _ hle ht

theorem intern (h : s.WellFormed) (hn : s.Normal shape) :
    (finalState (Store.intern shape s)).WellFormed := by
  rcases intern_cases shape s with ⟨t, -, hr⟩ | ⟨traits, hnew, ht, hr⟩ | ⟨f, -, hr⟩ | hr <;> rw [hr]
  · exact h
  · exact h.push hnew ht hn
  · exact h
  · exact h

end WellFormed

theorem union_eq (ts : List TypeId) (s : Store) : Store.union ts s = match s.flatten? ts with
    | .ok none => .ok .unknown s
    | .ok (some flat) =>
      if TypeId.all ∈ flat then .ok .all s
      else match normalize flat with
        | [] => .ok .empty s
        | [t] => .ok t s
        | members => Store.intern (.union members) s
    | .error f => .error f s := by
  unfold Store.union
  rw [StoreM.ask_bind]
  rcases s.flatten? ts with f | _ | flat
  · rfl
  · rfl
  · by_cases hall : TypeId.all ∈ flat
    · simp only [hall, if_true]
      rfl
    · simp only [hall, if_false]
      rcases normalize flat with _ | ⟨t, _ | ⟨t', rest⟩⟩ <;> rfl

theorem applied_eq (base : TypeId) (args : List TypeId) (s : Store) :
    Store.applied base args s =
      if args.isEmpty then .ok base s
      else match s.kind base with
        | .ok kind => if kind = .named then Store.intern (.applied base args) s else .ok base s
        | .error f => .error f s := by
  unfold Store.applied
  split
  · rfl
  · rw [StoreM.ask_bind]
    rcases s.kind base with f | kind
    · rfl
    · by_cases hk : kind = .named
      · simp only [hk, if_true]
      · simp only [hk, if_false]
        rfl

namespace WellFormed

theorem kind_of_mem_members (h : s.WellFormed) {members : List TypeId} {m : TypeId}
    (hms : s.members t = .ok members) (ht : t ≠ .unknown) (hm : m ∈ members) :
    m = .all ∨ s.kind m = .ok .named ∨ s.kind m = .ok .applied := by
  obtain ⟨shape, hs, hms⟩ := bind_eq_ok_iff.1 hms
  cases hms
  have hk : s.kind t = .ok shape.kind := bind_eq_ok_iff.2 ⟨shape, hs, rfl⟩
  cases shape with
  | unknown => exact absurd (h.unknown.1 hs) ht
  | union ms => exact .inr ((h.normal hs).2.2 m hm)
  | empty => cases hm
  | all => exact .inl (List.mem_singleton.1 hm ▸ h.all.1 hs)
  | named name => exact .inr (.inl (List.mem_singleton.1 hm ▸ hk))
  | applied base args => exact .inr (.inr (List.mem_singleton.1 hm ▸ hk))

theorem kind_of_mem_flatten (h : s.WellFormed) {ts flat : List TypeId}
    (hf : s.flatten? ts = .ok (some flat)) :
    ∀ m ∈ flat, m = .all ∨ s.kind m = .ok .named ∨ s.kind m = .ok .applied := by
  induction ts generalizing flat with
  | nil =>
    cases hf
    simp
  | cons t ts ih =>
    unfold flatten? at hf
    split at hf
    · cases hf
    · rename_i ht
      obtain ⟨members, hms, hf⟩ := bind_eq_ok_iff.1 hf
      obtain ⟨rest, hr, hf⟩ := bind_eq_ok_iff.1 hf
      cases rest with
      | none => cases hf
      | some rest =>
        cases hf
        intro m hm
        rcases List.mem_append.1 hm with hm | hm
        · exact h.kind_of_mem_members hms (by simpa using ht) hm
        · exact ih hr m hm

/-- The members of several types, put in order, make a union in normal form unless they are too few
or one of them is `*`. -/
theorem normal_union (h : s.WellFormed) {ts flat : List TypeId} (hf : s.flatten? ts = .ok (some flat))
    (hall : TypeId.all ∉ flat) (hlen : 2 ≤ (normalize flat).length) :
    s.Normal (.union (normalize flat)) := by
  refine ⟨hlen, (pairwise_normalize flat).imp fun hlt => TypeId.compare_eq_lt.1 hlt, fun m hm => ?_⟩
  rw [mem_normalize] at hm
  refine (h.kind_of_mem_flatten hf m hm).resolve_left ?_
  rintro rfl
  exact hall hm

theorem union (h : s.WellFormed) (ts : List TypeId) :
    (finalState (Store.union ts s)).WellFormed := by
  rw [union_eq]
  split
  · exact h
  · rename_i flat hf
    split
    · exact h
    · rename_i hall
      have hnormal := h.normal_union hf hall
      split
      · exact h
      · exact h
      · -- At least two members are left, or one of the cases before would have been taken.
        rename_i members h0 h1
        refine h.intern (hnormal ?_)
        match hn : normalize flat with
        | [] => exact absurd hn h0
        | [t] => exact absurd hn (h1 t)
        | _ :: _ :: _ => simp
  · exact h

theorem applied (h : s.WellFormed) (base : TypeId) (args : List TypeId) :
    (finalState (Store.applied base args s)).WellFormed := by
  rw [applied_eq]
  split
  · exact h
  · rename_i hargs
    split
    · rename_i kind hk
      split
      · rename_i hnamed
        refine h.intern ⟨hnamed ▸ hk, ?_⟩
        rintro rfl
        exact hargs rfl
      · exact h
    · exact h

theorem make (h : s.WellFormed) (former : Former) :
    (finalState (former.make s)).WellFormed := by
  cases former with
  | named name => exact h.intern trivial
  | union ts => exact h.union ts
  | applied base args => exact h.applied base args

end WellFormed

end Store

theorem Eval.wellFormed_stepwise : Eval.Stepwise fun _ act =>
    ∀ p, p.store.WellFormed → (finalState (act p)).store.WellFormed where
  pure _ _ h := h
  throw _ _ h := h
  bind {α β act next} ha hn p h := by
    have hp := ha p h
    rw [bind_apply]
    cases hr : act p with
    | ok a p' =>
      rw [hr] at hp
      exact hn a p' hp
    | error e p' =>
      rw [hr] at hp
      exact hp
  note miss p h := by rwa [note_store]
  ask _ p h := by rwa [ask_store]
  union ts p h := by
    rw [build_store]
    exact h.union ts
  applied base args p h := by
    rw [build_store]
    exact h.applied base args

namespace Store

theorem WellFormed.evaluate {s : Store} (h : s.WellFormed) (cx : Context) (scope : Scope)
    (root : NodeId) : (cx.evaluate scope root s).2.WellFormed := by
  rw [cx.evaluate_snd]
  exact Eval.wellFormed_stepwise.typeAt cx (cx.limit.room 0) scope root ⟨s, []⟩ h

theorem WellFormed.after {s : Store} (h : s.WellFormed) (call : Call) : (s.after call).WellFormed := by
  cases call with
  | make former => exact h.make former
  | evaluate cx scope root => exact h.evaluate cx scope root

theorem Reachable.wellFormed {s : Store} (h : s.Reachable) : s.WellFormed := by
  obtain ⟨calls, rfl⟩ := h
  exact run_induction wellFormed_new (fun s call hs => hs.after call) calls

/-- How a step that makes a type changes the store: by one entry at most, and not at all if the
step faults. -/
def OneEntryMore (s : Store) : EStateM.Result Fault Store TypeId → Prop
  | .ok _ s' => s' = s ∨ ∃ e, s' = s.push e
  | .error _ s' => s' = s

theorem intern_oneEntryMore (shape : Shape) (s : Store) :
    s.OneEntryMore (Store.intern shape s) := by
  rcases intern_cases shape s with ⟨t, -, hr⟩ | ⟨traits, -, -, hr⟩ | ⟨f, -, hr⟩ | hr <;> rw [hr]
  · exact .inl rfl
  · exact .inr ⟨_, rfl⟩
  · exact rfl
  · exact rfl

theorem make_oneEntryMore (former : Former) (s : Store) : s.OneEntryMore (former.make s) := by
  cases former with
  | named name => exact intern_oneEntryMore _ s
  | union ts =>
    change s.OneEntryMore (Store.union ts s)
    rw [union_eq]
    split
    · exact .inl rfl
    · split
      · exact .inl rfl
      · split
        · exact .inl rfl
        · exact .inl rfl
        · exact intern_oneEntryMore _ s
    · exact rfl
  | applied base args =>
    change s.OneEntryMore (Store.applied base args s)
    rw [applied_eq]
    split
    · exact .inl rfl
    · split
      · split
        · exact intern_oneEntryMore _ s
        · exact .inl rfl
      · exact rfl

/-- Whatever is made and evaluated, the store stays well formed; a shape is stored at most once;
and making a type adds one entry at most, and none when it faults. -/
theorem run_wellFormed (calls : List Call) :
    (new.run calls).WellFormed ∧
      (∀ a b shape, (new.run calls).shape a = .ok shape → (new.run calls).shape b = .ok shape → a = b) ∧
      ∀ former : Former, match former.make (new.run calls) with
        | .ok _ s' => s' = new.run calls ∨ ∃ e, s' = (new.run calls).push e
        | .error _ s' => s' = new.run calls := by
  have h := Reachable.wellFormed ⟨calls, rfl⟩
  exact ⟨h, fun a b shape ha hb => h.eq_of_shape ha hb, fun former => make_oneEntryMore former _⟩

end Store

end TypeCalculus
