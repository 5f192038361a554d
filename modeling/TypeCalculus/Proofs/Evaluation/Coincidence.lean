import TypeCalculus.Proofs.History

/-!
An evaluation depends on its scope only through the variables that are free in the expression, and
on the declarations only through the types that it asks for by name. One text may name a variable, a
type, a parameter and an operator at once, and none of them gets in the way of another.
-/

namespace TypeCalculus

namespace Arena

/-- The variable occurs in the expression, and not below a function that has it as its parameter. -/
inductive Free (a : Arena) (name : Name) : NodeId → Prop where
  | var {id} : a.node id = .ok (.var name) → Free a name id
  | operand {id callee range operands operand} : a.node id = .ok (.call callee range) →
      a.slice range = .ok operands → operand ∈ operands → Free a name operand → Free a name id
  | body {id param body} : a.node id = .ok (.function param body) → param ≠ name →
      Free a name body → Free a name id

/-- The expression asks somewhere for the type declared under `name`. -/
def Mentions (a : Arena) (names : NameTable) (name : Name) (root : NodeId) : Prop :=
  ∃ id args, a.Within names root .type id ∧ a.Asks names id (.named name args)

section Free

variable {a : Arena} {id body : NodeId} {name x param : Name}

theorem free_var_iff (hn : a.node id = .ok (.var x)) : a.Free name id ↔ x = name := by
  constructor
  · intro h
    cases h with
    | var hn' =>
      cases hn.symm.trans hn'
      rfl
    | operand hn' => cases hn.symm.trans hn'
    | body hn' => cases hn.symm.trans hn'
  · rintro rfl
    exact .var hn

theorem free_call_iff {callee : Name} {range : OperandRange} {operands : List NodeId}
    (hn : a.node id = .ok (.call callee range)) (hs : a.slice range = .ok operands) :
    a.Free name id ↔ ∃ operand ∈ operands, a.Free name operand := by
  constructor
  · intro h
    cases h with
    | var hn' => cases hn.symm.trans hn'
    | operand hn' hs' hmem hfree =>
      cases hn.symm.trans hn'
      cases hs.symm.trans hs'
      exact ⟨_, hmem, hfree⟩
    | body hn' => cases hn.symm.trans hn'
  · rintro ⟨operand, hmem, hfree⟩
    exact .operand hn hs hmem hfree

theorem free_function_iff (hn : a.node id = .ok (.function param body)) :
    a.Free name id ↔ param ≠ name ∧ a.Free name body := by
  constructor
  · intro h
    cases h with
    | var hn' => cases hn.symm.trans hn'
    | operand hn' => cases hn.symm.trans hn'
    | body hn' hne hfree =>
      cases hn.symm.trans hn'
      exact ⟨hne, hfree⟩
  · rintro ⟨hne, hfree⟩
    exact .body hn hne hfree

theorem not_free_str (hn : a.node id = .ok (.str x)) : ¬a.Free name id := by
  intro h
  cases h with
  | var hn' => cases hn.symm.trans hn'
  | operand hn' => cases hn.symm.trans hn'
  | body hn' => cases hn.symm.trans hn'

end Free

end Arena

/-- Both scopes say the same about every variable that is free in the expression. -/
def Scope.AgreeOn (scope scope' : Scope) (a : Arena) (id : NodeId) : Prop :=
  ∀ name, a.Free name id → scope.lookup? name = scope'.lookup? name

namespace Scope.AgreeOn

variable {scope scope' : Scope} {a : Arena} {id : NodeId}

theorem operand (h : scope.AgreeOn scope' a id) {names : NameTable} {text : String}
    {operands : List NodeId} (hc : a.Calls names id text operands) {operand : NodeId}
    (hmem : operand ∈ operands) : scope.AgreeOn scope' a operand := by
  obtain ⟨callee, range, hn, -, hs⟩ := hc
  intro name hfree
  exact h name (.operand hn hs hmem hfree)

/-- Scopes that agree outside a function agree on its body, once both bind its parameter. -/
theorem body (h : scope.AgreeOn scope' a id) {param : Name} {body : NodeId}
    (hn : a.node id = .ok (.function param body)) (t : TypeId) :
    (scope.extend [(param, t)]).AgreeOn (scope'.extend [(param, t)]) a body := by
  intro name hfree
  rw [lookup?_extend_single, lookup?_extend_single]
  by_cases hp : param = name
  · rw [if_pos hp, if_pos hp]
  · rw [if_neg hp, if_neg hp]
    exact h name (.body hn hp hfree)

end Scope.AgreeOn

namespace Context

variable {names : NameTable} {arena : Arena} {limit : DepthLimit}
  {declared? declared' : Name → Option TypeId} {root : NodeId}

/-- The two evaluations come to the same nodes, in scopes that agree on them. -/
theorem pairing_of_agreeOn
    (hd : ∀ name, arena.Mentions names name root → declared? name = declared' name) (bound : Nat) :
    Eval.Pairing (fun _ act act' => act = act') ⟨names, arena, declared?, limit⟩
      ⟨names, arena, declared', limit⟩ (fun place scope id scope' id' =>
        id = id' ∧ arena.Within names root place id ∧ scope.AgreeOn scope' arena id) bound where
  type {scope id scope' id'} := by
    rintro ⟨rfl, hw, hs⟩
    refine .inr (.of_self fun op hop => ?_)
    have hasks : arena.Asks names id op := Arena.operation_iff.1 hop
    refine hasks.resembles ?_ ?_ ?_ ?_
    · intro x hx
      exact Eval.Lockstep.eq.resolved_of_eq (hs x (.var hx)) fun _ => rfl
    · rintro name args rfl
      exact Eval.Lockstep.eq.resolved_of_eq (hd name ⟨id, args, hw, hasks⟩) fun _ => rfl
    · intro text operands place part hc hmem hpart
      exact ⟨rfl, hw.operation hasks hpart, hs.operand hc hmem⟩
    · intro text operands function param body hc hmem hn hpart t
      exact ⟨rfl, hw.operation hasks hpart, (hs.operand hc hmem).body hn t⟩
  condition {scope id scope' id'} := by
    rintro ⟨rfl, hw, hs⟩
    refine .of_self fun condition hcondition => ?_
    have htests : arena.Tests names id condition := Arena.condition_iff.1 hcondition
    refine htests.resembles fun hc hmem => ?_
    exact ⟨rfl, hw.condition htests hmem, hs.operand hc hmem⟩

theorem typeAt_coincides
    (hd : ∀ name, arena.Mentions names name root → declared? name = declared' name)
    {scope scope' : Scope} (hs : scope.AgreeOn scope' arena root) (room : Nat) :
    typeAt ⟨names, arena, declared?, limit⟩ room scope root =
      typeAt ⟨names, arena, declared', limit⟩ room scope' root := by
  have hroot : arena.Within names root .type root := .root
  exact Eval.Lockstep.eq.typeAt_of_pairing (pairing_of_agreeOn hd room) (fun _ => rfl)
    ⟨rfl, hroot, hs⟩

/-- An evaluation is the same in every scope that says the same about the free variables of the
expression, and with all declarations that say the same about the types it asks for by name. -/
theorem evaluate_coincides {scope scope' : Scope}
    (hs : ∀ name, arena.Free name root → scope.lookup? name = scope'.lookup? name)
    (hd : ∀ name, arena.Mentions names name root → declared? name = declared' name) (s : Store) :
    evaluate ⟨names, arena, declared?, limit⟩ scope root s =
      evaluate ⟨names, arena, declared', limit⟩ scope' root s := by
  unfold evaluate
  rw [typeAt_coincides hd hs]

end Context

/-- `union(mapunion(type('N'), (N) => N), x)`. The name of a type is the name of a parameter too. -/
def Arena.homonyms : Arena :=
  ⟨#[.str ⟨1, 0⟩, .call ⟨2, 0⟩ ⟨0, 1⟩, .var ⟨1, 0⟩, .function ⟨1, 0⟩ ⟨2⟩, .call ⟨7, 0⟩ ⟨1, 2⟩,
    .var ⟨0, 2⟩, .call ⟨9, 0⟩ ⟨3, 2⟩], #[⟨0⟩, ⟨1⟩, ⟨3⟩, ⟨4⟩, ⟨5⟩]⟩

theorem Arena.homonyms_free_iff {name : Name} : homonyms.Free name ⟨6⟩ ↔ ⟨0, 2⟩ = name := by
  have hliteral : ¬homonyms.Free name ⟨0⟩ := not_free_str rfl
  have htype : homonyms.Free name ⟨1⟩ ↔ ∃ id ∈ [⟨0⟩], homonyms.Free name id := free_call_iff rfl rfl
  have hparam : homonyms.Free name ⟨2⟩ ↔ ⟨1, 0⟩ = name := free_var_iff rfl
  have hfunction : homonyms.Free name ⟨3⟩ ↔ ⟨1, 0⟩ ≠ name ∧ homonyms.Free name ⟨2⟩ :=
    free_function_iff rfl
  have hmap : homonyms.Free name ⟨4⟩ ↔ ∃ id ∈ [⟨1⟩, ⟨3⟩], homonyms.Free name id :=
    free_call_iff rfl rfl
  have hx : homonyms.Free name ⟨5⟩ ↔ ⟨0, 2⟩ = name := free_var_iff rfl
  have hroot : homonyms.Free name ⟨6⟩ ↔ ∃ id ∈ [⟨4⟩, ⟨5⟩], homonyms.Free name id :=
    free_call_iff rfl rfl
  simp [hroot, hmap, htype, hliteral, hfunction, hparam, hx]

theorem Arena.homonyms_mentions {names : NameTable} {name : Name}
    (h : homonyms.Mentions names name ⟨6⟩) : name = ⟨1, 0⟩ := by
  obtain ⟨id, args, -, ⟨i⟩, -, hliteral⟩ := h
  match i with
  | 0 =>
    cases hliteral
    rfl
  | 1 | 2 | 3 | 4 | 5 | 6 => cases hliteral
  | i + 7 => cases hliteral

/-- A variable called like the type is bound, and a type called like the variable is declared. -/
theorem Context.homonyms_evaluate_coincides :
    (evaluate ⟨.new .byScalars, .homonyms, fun name => if name = ⟨1, 0⟩ then some ⟨3⟩ else none, ⟨3⟩⟩
        (.ofBindings [(⟨0, 2⟩, ⟨4⟩)]) ⟨6⟩ .sampleTypes).1 = .ok ⟨⟨5⟩, []⟩ ∧
      evaluate ⟨.new .byScalars, .homonyms, fun name => if name = ⟨1, 0⟩ then some ⟨3⟩ else none, ⟨3⟩⟩
          (.ofBindings [(⟨0, 2⟩, ⟨4⟩)]) ⟨6⟩ .sampleTypes =
        evaluate ⟨.new .byScalars, .homonyms,
            fun name => if name = ⟨1, 0⟩ then some ⟨3⟩ else some ⟨7⟩, ⟨3⟩⟩
          (.ofBindings [(⟨0, 2⟩, ⟨4⟩), (⟨1, 0⟩, ⟨4⟩)]) ⟨6⟩ .sampleTypes := by
  refine ⟨rfl, evaluate_coincides (fun name hname => ?_) (fun name hname => ?_) _⟩
  · cases Arena.homonyms_free_iff.1 hname
    rfl
  · cases Arena.homonyms_mentions hname
    rfl

end TypeCalculus
