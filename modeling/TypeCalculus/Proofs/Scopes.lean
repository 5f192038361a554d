import Mathlib.Data.List.Induction
import TypeCalculus.Scope

/-!
A chain of levels answers as one list of bindings does of which the last one for a name counts. It
makes no difference whether a binding gives way to a later one of its level or to one of a level
further in.
-/

namespace TypeCalculus

/-- What stands at the greatest of some places; it is nothing if there are no places. -/
def AtGreatest (stands : Nat → TypeId → Prop) : Option TypeId → Prop
  | some t => ∃ i, stands i t ∧ ∀ j u, stands j u → j ≤ i
  | none => ∀ i t, ¬stands i t

/-- What the last binding of the name binds it to. -/
abbrev Latest (bindings : List (Name × TypeId)) (name : Name) : Option TypeId → Prop :=
  AtGreatest fun i t => bindings[i]? = some (name, t)

theorem getElem?_append_eq_some_iff {α : Type} {as bs : List α} {i : Nat} {a : α} :
    (as ++ bs)[i]? = some a ↔ as[i]? = some a ∨ ∃ j, i = as.length + j ∧ bs[j]? = some a := by
  rw [List.getElem?_append]
  split
  · rename_i hi
    refine ⟨.inl, fun h => h.resolve_right ?_⟩
    rintro ⟨j, rfl, -⟩
    exact absurd hi (by omega)
  · rename_i hi
    have hle : as.length ≤ i := Nat.not_lt.1 hi
    rw [List.getElem?_eq_none hle]
    constructor
    · exact fun h => .inr ⟨i - as.length, (Nat.add_sub_cancel' hle).symm, h⟩
    · rintro (h | ⟨j, rfl, h⟩)
      · cases h
      · rwa [Nat.add_sub_cancel_left]

namespace Latest

variable {earlier later : List (Name × TypeId)} {name : Name} {t : TypeId} {found found' : Option TypeId}

theorem nil : Latest [] name none := nofun

/-- Later bindings decide wherever they bind the name. -/
theorem append (h : Latest earlier name found) (h' : Latest later name found') :
    Latest (earlier ++ later) name (found'.or found) := by
  cases found' with
  | some t =>
    obtain ⟨i, hi, hgreatest⟩ := h'
    refine ⟨earlier.length + i, getElem?_append_eq_some_iff.2 (.inr ⟨i, rfl, hi⟩), fun j u hj => ?_⟩
    rcases getElem?_append_eq_some_iff.1 hj with hj | ⟨k, rfl, hk⟩
    · have hlt : j < earlier.length := (List.getElem?_eq_some_iff.1 hj).choose
      omega
    · have hle : k ≤ i := hgreatest k u hk
      omega
  | none =>
    cases found with
    | some t =>
      obtain ⟨i, hi, hgreatest⟩ := h
      refine ⟨i, getElem?_append_eq_some_iff.2 (.inl hi), fun j u hj => ?_⟩
      rcases getElem?_append_eq_some_iff.1 hj with hj | ⟨k, -, hk⟩
      · exact hgreatest j u hj
      · exact absurd hk (h' k u)
    | none =>
      intro i t hi
      rcases getElem?_append_eq_some_iff.1 hi with hi | ⟨k, -, hk⟩
      · exact h i t hi
      · exact h' k t hk

theorem singleton (bound name : Name) (t : TypeId) :
    Latest [(bound, t)] name (if bound = name then some t else none) := by
  split
  · rename_i hbound
    subst hbound
    refine ⟨0, rfl, fun j u hj => ?_⟩
    have hlt : j < 1 := (List.getElem?_eq_some_iff.1 hj).choose
    omega
  · rename_i hbound
    intro i u hi
    have hmem := List.mem_singleton.1 (List.mem_of_getElem? hi)
    exact hbound (congrArg Prod.fst hmem).symm

theorem exists_mem_iff (h : Latest earlier name found) :
    (∃ t, (name, t) ∈ earlier) ↔ found.isSome = true := by
  cases found with
  | some t =>
    obtain ⟨i, hi, -⟩ := h
    exact iff_of_true ⟨t, List.mem_of_getElem? hi⟩ rfl
  | none =>
    refine iff_of_false ?_ nofun
    rintro ⟨t, ht⟩
    obtain ⟨i, hi⟩ := List.getElem?_of_mem ht
    exact h i t hi

end Latest

theorem Level.latest_ofBindings (bindings : List (Name × TypeId)) (name : Name) :
    Latest bindings name (Level.ofBindings bindings)[name]? := by
  induction bindings using List.reverseRecOn with
  | nil => exact .nil
  | append_singleton bindings b ih =>
    obtain ⟨bound, t⟩ := b
    have hboth := ih.append (.singleton bound name t)
    rw [getElem?_ofBindings_concat]
    by_cases hbound : bound = name
    · rw [if_pos hbound] at hboth ⊢
      exact hboth
    · rw [if_neg hbound] at hboth ⊢
      exact hboth

namespace Scope

variable {scope : Scope} {bindings more : List (Name × TypeId)} {name : Name}

/-- A level for each list of bindings, the later ones further in. -/
def chain (first : List (Name × TypeId)) (later : List (List (Name × TypeId))) : Scope :=
  later.foldl extend (ofBindings first)

theorem contains_iff_mem_names : scope.contains name = true ↔ name ∈ scope.names := by
  simp only [contains, lookup?, names, namesByLevel, List.findSome?_isSome_iff, List.mem_flatten,
    List.mem_map, Std.TreeMap.isSome_getElem?_iff_mem]
  constructor
  · rintro ⟨level, hlevel, hname⟩
    exact ⟨level.keys, ⟨level, hlevel, rfl⟩, Std.TreeMap.mem_keys.2 hname⟩
  · rintro ⟨_, ⟨level, hlevel, rfl⟩, hname⟩
    exact ⟨level, hlevel, Std.TreeMap.mem_keys.1 hname⟩

theorem isEmpty_iff : scope.isEmpty = true ↔ ∀ name, scope.lookup? name = none := by
  simp only [isEmpty, lookup?, List.all_eq_true, List.findSome?_eq_none_iff,
    Std.TreeMap.isEmpty_iff_forall_not_mem, Std.TreeMap.mem_iff_isSome_getElem?,
    Option.not_isSome_iff_eq_none]
  exact ⟨fun h name level hlevel => h level hlevel name, fun h level hlevel name => h name level hlevel⟩

/-- The scope says of each name what the list of bindings says, the last one for a name first. -/
structure AnswersAs (scope : Scope) (bindings : List (Name × TypeId)) : Prop where
  lookup? : ∀ name, Latest bindings name (scope.lookup? name)
  contains : ∀ name, scope.contains name = true ↔ name ∈ scope.names
  names : ∀ name, name ∈ scope.names ↔ ∃ t, (name, t) ∈ bindings
  isEmpty : scope.isEmpty = true ↔ ∀ name, scope.lookup? name = none

theorem answersAs_iff :
    scope.AnswersAs bindings ↔ ∀ name, Latest bindings name (scope.lookup? name) := by
  refine ⟨AnswersAs.lookup?, fun h => ⟨h, fun name => contains_iff_mem_names, fun name => ?_, isEmpty_iff⟩⟩
  rw [← contains_iff_mem_names, (h name).exists_mem_iff]
  rfl

theorem answersAs_ofBindings (bindings : List (Name × TypeId)) :
    (ofBindings bindings).AnswersAs bindings := by
  refine answersAs_iff.2 fun name => ?_
  rw [lookup?_ofBindings]
  exact Level.latest_ofBindings bindings name

theorem AnswersAs.extend (h : scope.AnswersAs bindings) (more : List (Name × TypeId)) :
    (scope.extend more).AnswersAs (bindings ++ more) := by
  refine answersAs_iff.2 fun name => ?_
  rw [lookup?_extend]
  exact (h.lookup? name).append (Level.latest_ofBindings more name)

theorem AnswersAs.chain (h : scope.AnswersAs bindings) (later : List (List (Name × TypeId))) :
    (later.foldl Scope.extend scope).AnswersAs (bindings ++ later.flatten) := by
  induction later generalizing scope bindings with
  | nil => simpa using h
  | cons more later ih =>
    rw [List.flatten_cons, ← List.append_assoc]
    exact ih (h.extend more)

/-- A chain answers as all of its bindings in a row do. At a call site the last of the places counts at
which there are both a parameter of the name and an argument. -/
theorem chain_answers_as_one_list :
    (∀ first later, (chain first later).AnswersAs (first ++ later.flatten)) ∧
      ∀ params args name, AtGreatest (fun i t => params[i]? = some name ∧ args[i]? = some t)
        ((ofCallSite params args).lookup? name) := by
  refine ⟨fun first later => (answersAs_ofBindings first).chain later, fun params args name => ?_⟩
  have hzip : Latest (params.zip args) name ((ofCallSite params args).lookup? name) :=
    (answersAs_ofBindings (params.zip args)).lookup? name
  simpa only [Latest, List.getElem?_zip_eq_some] using hzip

end Scope

end TypeCalculus
