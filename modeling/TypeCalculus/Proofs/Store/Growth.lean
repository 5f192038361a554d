import Mathlib.Order.Basic
import TypeCalculus.Store.Build
import TypeCalculus.Store.Subtype

/-!
Stores only grow. A store is below another when the other holds the same types in the same places;
what the smaller store answers the larger one answers too, and making a type a second time gives
the same handle and adds nothing.
-/

namespace TypeCalculus

/-- The state in which a step ends, whether or not it fails. -/
def finalState {ε σ α : Type} : EStateM.Result ε σ α → σ
  | .ok _ s => s
  | .error _ s => s

theorem bind_apply {ε σ α β : Type} (act : EStateM ε σ α) (next : α → EStateM ε σ β) (s : σ) :
    (act >>= next) s = match act s with
      | .ok a s' => next a s'
      | .error e s' => .error e s' := by
  change EStateM.bind act next s = _
  unfold EStateM.bind
  cases act s <;> rfl

theorem bind_apply_eq_ok_iff {ε σ α β : Type} {act : EStateM ε σ α} {next : α → EStateM ε σ β}
    {s s' : σ} {b : β} : (act >>= next) s = .ok b s' ↔
      ∃ a s₁, act s = .ok a s₁ ∧ next a s₁ = .ok b s' := by
  rw [bind_apply]
  cases act s <;> simp [and_assoc]

theorem bind_apply_eq_error_iff {ε σ α β : Type} {act : EStateM ε σ α} {next : α → EStateM ε σ β}
    {s s' : σ} {e : ε} : (act >>= next) s = .error e s' ↔
      act s = .error e s' ∨ ∃ a s₁, act s = .ok a s₁ ∧ next a s₁ = .error e s' := by
  rw [bind_apply]
  cases act s <;> simp [and_assoc]

theorem bind_eq_ok_iff {ε α β : Type} {x : Except ε α} {f : α → Except ε β} {b : β} :
    (x >>= f) = .ok b ↔ ∃ a, x = .ok a ∧ f a = .ok b := by
  cases x <;> simp [bind, Except.bind]

theorem bind_eq_error_iff {ε α β : Type} {x : Except ε α} {f : α → Except ε β} {e : ε} :
    (x >>= f) = .error e ↔ x = .error e ∨ ∃ a, x = .ok a ∧ f a = .error e := by
  cases x <;> simp [bind, Except.bind]

@[simp] theorem ok_bind {ε α β : Type} (a : α) (f : α → Except ε β) : (.ok a >>= f) = f a := rfl

theorem pure_eq_ok_iff {ε α : Type} {a b : α} : (pure a : Except ε α) = .ok b ↔ a = b :=
  ⟨Except.ok.inj, congrArg Except.ok⟩

namespace Store

/-- `s'` holds what `s` holds, in the same places. -/
structure Extends (s s' : Store) : Prop where
  entries : ∀ (i : Nat) e, s.entries[i]? = some e → s'.entries[i]? = some e
  directory : ∀ (shape : Shape) t, s.directory[shape]? = some t → s'.directory[shape]? = some t

instance : Preorder Store where
  le := Extends
  le_refl _ := ⟨fun _ _ h => h, fun _ _ h => h⟩
  le_trans _ _ _ h h' := ⟨fun i e he => h'.entries i e (h.entries i e he),
    fun sh t ht => h'.directory sh t (h.directory sh t ht)⟩

section Growth

variable {s s' : Store} {t : TypeId} {e : Entry}

theorem entry_eq_ok_iff : s.entry t = .ok e ↔ s.entries[t.index]? = some e := by
  unfold entry
  split <;> simp_all

theorem shape_eq_ok_iff {shape : Shape} :
    s.shape t = .ok shape ↔ ∃ traits, s.entry t = .ok ⟨shape, traits⟩ := by
  simp only [Store.shape, bind_eq_ok_iff, pure_eq_ok_iff]
  constructor
  · rintro ⟨⟨_, traits⟩, he, rfl⟩
    exact ⟨traits, he⟩
  · rintro ⟨traits, he⟩
    exact ⟨_, he, rfl⟩

theorem kind_eq_ok_iff {kind : Kind} :
    s.kind t = .ok kind ↔ ∃ shape, s.shape t = .ok shape ∧ shape.kind = kind := by
  simp only [Store.kind, bind_eq_ok_iff, pure_eq_ok_iff]

theorem le_push (h : s.directory[e.shape]? = none) : s ≤ s.push e := by
  refine ⟨fun i e' he => ?_, fun shape t ht => ?_⟩
  · have hi : i < s.entries.size := (Array.getElem?_eq_some_iff.1 he).choose
    rw [push, Array.getElem?_push_lt hi, ← he, Array.getElem?_eq_getElem hi]
  · have hne : e.shape ≠ shape := by
      rintro rfl
      rw [h] at ht
      cases ht
    simp [push, Std.TreeMap.getElem?_insert, hne, ht]

theorem prefix_of_le (h : s ≤ s') : s.entries.toList <+: s'.entries.toList := by
  rw [List.prefix_iff_getElem?]
  intro i hi
  have he : s.entries[i]? = some s.entries.toList[i] := by simp
  simpa using h.entries i _ he

theorem size_le_of_le (h : s ≤ s') : s.size ≤ s'.size := (prefix_of_le h).length_le

end Growth

/-- An answer to the question stays what it is as the store grows. -/
def Lasting {α : Type} (question : Store → Except Fault α) : Prop :=
  ∀ ⦃s s' a⦄, s ≤ s' → question s = .ok a → question s' = .ok a

namespace Lasting

variable {α β : Type}

theorem pure (a : α) : Lasting fun _ => .ok a := fun _ _ _ _ h => h

theorem error (f : Fault) : Lasting (fun _ => .error f : Store → Except Fault α) := by
  intro s s' a _ h
  cases h

theorem bind {question : Store → Except Fault α} {next : α → Store → Except Fault β}
    (h : Lasting question) (hn : ∀ a, Lasting (next a)) :
    Lasting fun s => question s >>= fun a => next a s := by
  intro s s' b hle hb
  obtain ⟨a, ha, hb⟩ := bind_eq_ok_iff.1 hb
  exact bind_eq_ok_iff.2 ⟨a, h hle ha, hn a hle hb⟩

theorem map {question : Store → Except Fault α} (h : Lasting question) (f : α → β) :
    Lasting fun s => do return f (← question s) := h.bind fun a => pure (f a)

theorem entry (t : TypeId) : Lasting (·.entry t) := by
  intro s s' e hle h
  exact entry_eq_ok_iff.2 (hle.entries _ _ (entry_eq_ok_iff.1 h))

theorem shape (t : TypeId) : Lasting (·.shape t) := (entry t).map _

theorem traits (t : TypeId) : Lasting (·.traits t) := (entry t).map _

theorem kind (t : TypeId) : Lasting (·.kind t) := (shape t).map _

theorem members (t : TypeId) : Lasting (·.members t) := (shape t).map _

theorem base? (t : TypeId) : Lasting (·.base? t) := (shape t).map _

theorem args (t : TypeId) : Lasting (·.args t) := (shape t).map _

theorem foldlM {γ : Type} {step : γ → β → Store → Except Fault γ} (hs : ∀ c b, Lasting (step c b))
    (bs : List β) (c : γ) : Lasting fun s => bs.foldlM (fun c b => step c b s) c := by
  induction bs generalizing c with
  | nil => exact pure c
  | cons b bs ih =>
    simp only [List.foldlM_cons]
    exact (hs c b).bind ih

theorem mapM {question : β → Store → Except Fault α} (hq : ∀ b, Lasting (question b)) (bs : List β) :
    Lasting fun s => bs.mapM fun b => question b s := by
  induction bs with
  | nil => exact pure []
  | cons b bs ih =>
    simp only [List.mapM_cons]
    exact (hq b).bind fun a => ih.map (a :: ·)

theorem allM {test : β → Store → Except Fault Bool} (ht : ∀ b, Lasting (test b)) (bs : List β) :
    Lasting fun s => bs.allM fun b => test b s := by
  induction bs with
  | nil => exact pure true
  | cons b bs ih =>
    refine (ht b).bind fun holds => ?_
    cases holds with
    | true => exact ih
    | false => exact pure false

theorem anyM {test : β → Store → Except Fault Bool} (ht : ∀ b, Lasting (test b)) (bs : List β) :
    Lasting fun s => bs.anyM fun b => test b s := by
  induction bs with
  | nil => exact pure false
  | cons b bs ih =>
    refine (ht b).bind fun holds => ?_
    cases holds with
    | true => exact pure true
    | false => exact ih

theorem traitsOf (shape : Shape) : Lasting (·.traitsOf shape) :=
  foldlM (fun (acc : Traits) part => (traits part).map fun t => acc.join t.inherited) _ _

theorem flatten? (ts : List TypeId) : Lasting (·.flatten? ts) := by
  induction ts with
  | nil => exact pure (some [])
  | cons t ts ih =>
    simp only [Store.flatten?]
    split
    · exact pure none
    · exact (members t).bind fun ms => ih.bind fun flat => pure (flat.map (ms ++ ·))

theorem argMatchesWithin (fuel : Nat) (a b : TypeId) : Lasting (·.argMatchesWithin fuel a b) := by
  induction fuel generalizing a b with
  | zero => exact error _
  | succ fuel ih =>
    simp only [Store.argMatchesWithin]
    split
    · exact pure true
    · refine (traits a).bind fun ta => (traits b).bind fun tb => ?_
      split
      · refine (shape a).bind fun sa => (shape b).bind fun sb => ?_
        split
        · split
          · exact allM (fun p : TypeId × TypeId => ih p.1 p.2) _
          · exact pure false
        · exact pure false
      · exact pure false

theorem argsMatch (as bs : List TypeId) : Lasting (·.argsMatch as bs) := by
  simp only [Store.argsMatch]
  split
  · exact allM (fun p : TypeId × TypeId => argMatchesWithin _ p.1 p.2) _
  · exact pure false

theorem subtypeWithin (fuel : Nat) (sub sup : TypeId) :
    Lasting (·.subtypeWithin fuel sub sup) := by
  induction fuel generalizing sub sup with
  | zero => exact error _
  | succ fuel ih =>
    simp only [Store.subtypeWithin]
    split
    · exact pure true
    · split
      · exact pure false
      · refine (shape sub).bind fun lower => ?_
        split
        · exact allM (fun m => ih m sup) _
        · refine (shape sup).bind fun upper => ?_
          split
          · exact anyM (fun m => ih sub m) _
          · exact pure _
          · split
            · exact argsMatch _ _
            · exact pure false
          · exact pure false

theorem isSubtype (sub sup : TypeId) : Lasting (·.isSubtype sub sup) := subtypeWithin _ sub sup

end Lasting

end Store

theorem Store.intern_cases (shape : Shape) (s : Store) :
    (∃ t, s.directory[shape]? = some t ∧ Store.intern shape s = .ok t s) ∨
      (∃ traits, s.directory[shape]? = none ∧ s.traitsOf shape = .ok traits ∧
        Store.intern shape s = .ok ⟨s.size⟩ (s.push ⟨shape, traits⟩)) ∨
      (∃ f, s.traitsOf shape = .error f ∧ Store.intern shape s = .error f s) ∨
      Store.intern shape s = .error .storeFull s := by
  unfold Store.intern
  split
  · rename_i t ht
    exact .inl ⟨t, ht, rfl⟩
  · rename_i hnew
    split
    · split
      · rename_i traits ht
        exact .inr (.inl ⟨traits, hnew, ht, rfl⟩)
      · rename_i f hf
        exact .inr (.inr (.inl ⟨f, hf, rfl⟩))
    · exact .inr (.inr (.inr rfl))

/-- A step that only adds to the store. Taken again in any store that holds what it left, it ends
the same way and adds nothing. -/
structure StoreM.Settles {α : Type} (act : StoreM α) : Prop where
  grows : ∀ s, s ≤ finalState (act s)
  again : ∀ {s a s' q}, act s = .ok a s' → s' ≤ q → act q = .ok a q

theorem StoreM.ask_bind {α β : Type} (question : Store → Except Fault α) (next : α → StoreM β)
    (s : Store) : (StoreM.ask question >>= next) s = match question s with
      | .ok a => next a s
      | .error f => .error f s := by
  rw [bind_apply]
  unfold StoreM.ask
  cases question s <;> rfl

namespace StoreM.Settles

variable {α β : Type}

theorem pure (a : α) : Settles (Pure.pure a : StoreM α) where
  grows s := le_refl s
  again h _ := by
    cases h
    rfl

theorem ask {question : Store → Except Fault α} (hq : Store.Lasting question) :
    Settles (StoreM.ask question) where
  grows s := by
    unfold StoreM.ask
    split <;> exact le_refl s
  again {s a s' q} h hle := by
    unfold StoreM.ask at h ⊢
    split at h
    · rename_i a' ha
      cases h
      simp only [hq hle ha]
    · cases h

theorem bind {act : StoreM α} {next : α → StoreM β} (h : Settles act) (hn : ∀ a, Settles (next a)) :
    Settles (act >>= next) where
  grows s := by
    have hs := h.grows s
    rw [bind_apply]
    cases ha : act s with
    | ok a s' =>
      rw [ha] at hs
      exact hs.trans ((hn a).grows s')
    | error f s' =>
      rw [ha] at hs
      exact hs
  again {s b s' q} hb hle := by
    obtain ⟨a, s₁, ha, hb⟩ := bind_apply_eq_ok_iff.1 hb
    -- The second half of the step only adds to what the first half left.
    have hs₁ : s₁ ≤ s' := by
      have hgrows := (hn a).grows s₁
      rwa [hb] at hgrows
    have hfirst := h.again ha (hs₁.trans hle)
    have hsecond := (hn a).again hb hle
    exact bind_apply_eq_ok_iff.2 ⟨a, q, hfirst, hsecond⟩

theorem intern (shape : Shape) : Settles (Store.intern shape) where
  grows s := by
    rcases Store.intern_cases shape s with ⟨t, -, h⟩ | ⟨traits, hnew, -, h⟩ | ⟨f, -, h⟩ | h <;> rw [h]
    · exact le_refl s
    · exact Store.le_push hnew
    · exact le_refl s
    · exact le_refl s
  again {s t s' q} ht hle := by
    -- However the step ended, the shape is in the directory now, and stays there.
    have hs' : s'.directory[shape]? = some t := by
      rcases Store.intern_cases shape s with ⟨t', hd, h⟩ | ⟨traits, -, -, h⟩ | ⟨f, -, h⟩ | h <;>
        cases h.symm.trans ht
      · exact hd
      · simp [Store.push]
    unfold Store.intern
    rw [hle.directory shape t hs']

theorem named (name : Name) : Settles (Store.named name) := intern _

theorem union (ts : List TypeId) : Settles (Store.union ts) := by
  refine (ask (Store.Lasting.flatten? ts)).bind fun flat => ?_
  cases flat with
  | none => exact pure _
  | some flat =>
    dsimp only
    split
    · exact pure _
    · split
      · exact pure _
      · exact pure _
      · exact intern _

theorem applied (base : TypeId) (args : List TypeId) : Settles (Store.applied base args) := by
  unfold Store.applied
  split
  · exact pure _
  · refine (ask (Store.Lasting.kind base)).bind fun kind => ?_
    split
    · exact intern _
    · exact pure _

end StoreM.Settles

end TypeCalculus
