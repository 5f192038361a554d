import TypeCalculus.Proofs.Store.Subtyping
import TypeCalculus.Store.Text

/-!
What a store says about its types is settled when they are made: further calls, also those that
fault or are given up half way, change none of its answers. The parts of a type are in every store
that holds the type, so this also covers the answers that walk into the parts.
-/

namespace TypeCalculus

/-- Both attempts write the same text, or meet the same name that the table does not give. -/
inductive WriteAlike (names : NameTable) : Except Fault String → Except Fault String → Prop where
  | text (text : String) : WriteAlike names (.ok text) (.ok text)
  | foreign {name : Name} (h : names.text? name = none) :
      WriteAlike names (.error (.foreignName name)) (.error (.foreignName name))

namespace WriteAlike

variable {names : NameTable} {r r' : Except Fault String}

theorem eq (h : WriteAlike names r r') : r = r' := by
  cases h with
  | text | foreign => rfl

theorem foreign_of_error (h : WriteAlike names r r') {f : Fault} (hf : r = .error f) :
    ∃ name, f = .foreignName name ∧ names.text? name = none := by
  cases h with
  | text text => cases hf
  | foreign hname =>
    cases hf
    exact ⟨_, rfl, hname⟩

theorem bind {next next' : String → Except Fault String} (h : WriteAlike names r r')
    (hn : ∀ text, WriteAlike names (next text) (next' text)) :
    WriteAlike names (r >>= next) (r' >>= next') := by
  cases h with
  | text text => exact hn text
  | foreign hname => exact .foreign hname

theorem separated {α : Type} {separator : String} {write write' : String → α → Except Fault String}
    {as : List α} (h : ∀ a ∈ as, ∀ buffer, WriteAlike names (write buffer a) (write' buffer a))
    (buffer : String) : WriteAlike names (writeSeparated separator write buffer as)
      (writeSeparated separator write' buffer as) := by
  induction as generalizing buffer with
  | nil => exact .text buffer
  | cons a as ih =>
    have hfirst := h a List.mem_cons_self
    have hrest := ih fun b hb => h b (List.mem_cons_of_mem _ hb)
    cases as with
    | nil => exact hfirst buffer
    | cons b bs => exact (hfirst buffer).bind fun text => hrest (text ++ separator)

end WriteAlike

namespace Store

variable {s s' : Store}

theorem WellFormed.writeWithin_alike (h : s.WellFormed) (hle : s ≤ s') (names : NameTable)
    {fuel : Nat} (buffer : String) {t : TypeId} (ht : t.index < s.size) (hfuel : t.index < fuel) :
    WriteAlike names (s.writeWithin names fuel buffer t) (s'.writeWithin names fuel buffer t) := by
  induction fuel generalizing buffer t with
  | zero => exact absurd hfuel (Nat.not_lt_zero _)
  | succ fuel ih =>
    obtain ⟨shape, hs⟩ := exists_shape_of_lt_size ht
    have hs' : s'.shape t = .ok shape := Lasting.shape t hle hs
    have hpart : ∀ part ∈ shape.parts, ∀ buffer, WriteAlike names
        (s.writeWithin names fuel buffer part) (s'.writeWithin names fuel buffer part) := by
      intro part hp buffer
      have hlt : part.index < t.index := h.parts_lt hs part hp
      exact ih buffer (Nat.lt_trans hlt ht) (Nat.lt_of_lt_of_le hlt (Nat.le_of_lt_succ hfuel))
    simp only [writeWithin, hs, hs', ok_bind]
    cases shape with
    | unknown | all | empty => exact .text _
    | named name =>
      cases hname : names.text? name with
      | some text =>
        simp only [hname]
        exact .text _
      | none =>
        simp only [hname]
        exact .foreign hname
    | union members => exact (WriteAlike.separated hpart _).bind fun text => .text _
    | applied base args =>
      refine (hpart base List.mem_cons_self buffer).bind fun text => ?_
      have harg : ∀ a ∈ args, ∀ buffer, WriteAlike names (s.writeWithin names fuel buffer a)
          (s'.writeWithin names fuel buffer a) := fun a ha => hpart a (List.mem_cons_of_mem _ ha)
      exact (WriteAlike.separated harg _).bind fun text => .text _

/-- The question has an answer, and the same one in both stores. -/
def Agree {α : Type} (question : Store → Except Fault α) (s s' : Store) : Prop :=
  ∃ answer, question s = .ok answer ∧ question s' = .ok answer

theorem Lasting.agree {α : Type} {question : Store → Except Fault α} (h : Lasting question)
    (hle : s ≤ s') (hs : ∃ answer, question s = .ok answer) : Agree question s s' := by
  obtain ⟨answer, ha⟩ := hs
  exact ⟨answer, ha, h hle ha⟩

/-- All that the two stores say about the type `a`, and about `a` below `b`, is the same. -/
structure AgreeAbout (s s' : Store) (a b : TypeId) : Prop where
  shape : Agree (·.shape a) s s'
  kind : Agree (·.kind a) s s'
  traits : Agree (·.traits a) s s'
  members : Agree (·.members a) s s'
  base? : Agree (·.base? a) s s'
  args : Agree (·.args a) s s'
  isSubtype : Agree (·.isSubtype a b) s s'
  write : ∀ names buffer, s.write names buffer a = s'.write names buffer a
  /-- A type is written unless it has a name that the table does not give. -/
  write_fault : ∀ names buffer f, s.write names buffer a = .error f →
    ∃ name, f = .foreignName name ∧ names.text? name = none

theorem WellFormed.agreeAbout (h : s.WellFormed) (hle : s ≤ s') {a b : TypeId}
    (ha : a.index < s.size) (hb : b.index < s.size) : s.AgreeAbout s' a b := by
  obtain ⟨e, he⟩ := exists_entry_of_lt_size ha
  have hs : s.shape a = .ok e.shape := bind_eq_ok_iff.2 ⟨e, he, rfl⟩
  obtain ⟨A, hA⟩ := h.exists_reads a ha
  obtain ⟨B, hB⟩ := h.exists_reads b hb
  obtain ⟨answer, hanswer, -⟩ := h.isSubtype_answers hA hB
  exact {
    shape := (Lasting.shape a).agree hle ⟨_, hs⟩
    kind := (Lasting.kind a).agree hle ⟨_, bind_eq_ok_iff.2 ⟨_, hs, rfl⟩⟩
    traits := (Lasting.traits a).agree hle ⟨_, bind_eq_ok_iff.2 ⟨_, he, rfl⟩⟩
    members := (Lasting.members a).agree hle ⟨_, bind_eq_ok_iff.2 ⟨_, hs, rfl⟩⟩
    base? := (Lasting.base? a).agree hle ⟨_, bind_eq_ok_iff.2 ⟨_, hs, rfl⟩⟩
    args := (Lasting.args a).agree hle ⟨_, bind_eq_ok_iff.2 ⟨_, hs, rfl⟩⟩
    isSubtype := (Lasting.isSubtype a b).agree hle ⟨_, hanswer⟩
    write := fun names buffer => (h.writeWithin_alike hle names buffer ha (Nat.lt_succ_self _)).eq
    write_fault := fun names buffer _ =>
      (h.writeWithin_alike hle names buffer ha (Nat.lt_succ_self _)).foreign_of_error }

/-- Whatever is made and evaluated afterwards, a store says of the types it holds what it said
before. -/
theorem Reachable.answers_last (h : s.Reachable) (calls : List Call) {a b : TypeId}
    (ha : a.index < s.size) (hb : b.index < s.size) : s.AgreeAbout (s.run calls) a b :=
  h.wellFormed.agreeAbout (le_run s calls) ha hb

/-- A union with a handle that leads nowhere is tried, a type is added, and of two evaluations one
has no root. -/
theorem sampleTypes_answers_last :
    sampleTypes.AgreeAbout (sampleTypes.run [.make (.union [⟨3⟩, ⟨99⟩]), .make (.named ⟨3, 0⟩),
      .evaluate .sample (.sample ⟨6⟩ ⟨7⟩) ⟨2⟩, .evaluate .sample (.sample ⟨3⟩ ⟨4⟩) ⟨9⟩]) ⟨8⟩ ⟨5⟩ :=
  sampleTypes_reachable.answers_last _ (by decide) (by decide)

end Store

end TypeCalculus
