import TypeCalculus.Proofs.Evaluation.Cells
import TypeCalculus.Proofs.Evaluation.Reach
import TypeCalculus.Proofs.Evaluation.Stability

/-!
An evaluation depends on its arena only through what it reads there. It reads the nodes that it comes
to, and it comes to no branch that was not taken, to no function that there is no member for, and to
nothing behind an error.
-/

namespace TypeCalculus

section Entering

variable (typeOf : Scope → NodeId → Eval TypeId) (holds : Scope → NodeId → Eval Bool) (scope : Scope)
  (p : Progress)

/-- What an operation comes to from `p` on, and how far the evaluation is by then. It comes to an
operand when those before it have succeeded, to a branch when the test has chosen it, and to the body
of a function once for each member. -/
inductive Operation.Enters : Operation → Position → Scope → NodeId → Progress → Prop where
  | arg {name before arg after ts q} : before.mapM (typeOf scope) p = .ok ts q →
      Enters (.named name (before ++ arg :: after)) .type scope arg q
  | member {before operand after ts q} : before.mapM (typeOf scope) p = .ok ts q →
      Enters (.union (before ++ operand :: after)) .type scope operand q
  | test {test yes no} : Enters (.cond test yes no) .condition scope test p
  | branch {test yes no chosen q} : holds scope test p = .ok chosen q →
      Enters (.cond test yes no) .type scope (if chosen then yes else no) q
  | source {source param body} : Enters (.mapUnion source param body) .type scope source p
  | body {source param body t q before m after ts q₁} : typeOf scope source p = .ok t q →
      q.store.members t = .ok (before ++ m :: after) →
      before.mapM (fun m => typeOf (scope.extend [(param, m)]) body) q = .ok ts q₁ →
      Enters (.mapUnion source param body) .type (scope.extend [(param, m)]) body q₁
  | raw {subject} : Enters (.rawTypeOf subject) .type scope subject p
  | template {subject place} : Enters (.templateTypeOf subject place) .type scope subject p

def Condition.Enters (condition : Condition) (part : NodeId) (q : Progress) : Prop :=
  ∃ before after ts, condition.parts = before ++ part :: after ∧
    before.mapM (typeOf scope) p = .ok ts q

end Entering

namespace Eval

variable {α β : Type} {p : Progress}

theorem bind_congr_at {act act' : Eval α} {next next' : α → Eval β} (h : act' p = act p)
    (hn : ∀ a q, act p = .ok a q → next' a q = next a q) : (act' >>= next') p = (act >>= next) p := by
  rw [bind_apply, bind_apply, h]
  cases hact : act p with
  | ok a q => exact hn a q hact
  | error e q => rfl

theorem mapM_congr_at {act act' : α → Eval β} {as : List α}
    (h : ∀ before a after bs q, as = before ++ a :: after → before.mapM act p = .ok bs q →
      act' a q = act a q) : as.mapM act' p = as.mapM act p := by
  induction as generalizing p with
  | nil => rfl
  | cons a as ih =>
    rw [List.mapM_cons, List.mapM_cons]
    refine bind_congr_at (h [] a as [] p rfl rfl) fun b q hb => ?_
    refine bind_congr_at (ih fun before a' after bs q' has hbefore => ?_) fun _ _ _ => rfl
    -- The first element has succeeded, so it only makes the list before the others longer.
    refine h (a :: before) a' after (b :: bs) q' (by rw [has, List.cons_append]) ?_
    rw [List.mapM_cons]
    exact bind_apply_eq_ok_iff.2 ⟨b, q, hb, bind_apply_eq_ok_iff.2 ⟨bs, q', hbefore, rfl⟩⟩

theorem mapM_error {act : α → Eval β} {before after : List α} {a : α} {bs : List β} {q q' : Progress}
    {e : Abort} (h : before.mapM act p = .ok bs q) (he : act a q = .error e q') :
    (before ++ a :: after).mapM act p = .error e q' := by
  induction before generalizing p bs with
  | nil =>
    cases h
    rw [List.nil_append, List.mapM_cons]
    exact bind_apply_eq_error_iff.2 (.inl he)
  | cons b before ih =>
    rw [List.mapM_cons] at h
    obtain ⟨c, p₁, hb, h⟩ := bind_apply_eq_ok_iff.1 h
    obtain ⟨cs, p₂, hbefore, h⟩ := bind_apply_eq_ok_iff.1 h
    cases h
    rw [List.cons_append, List.mapM_cons]
    exact bind_apply_eq_error_iff.2 (.inr ⟨c, p₁, hb, bind_apply_eq_error_iff.2 (.inl (ih hbefore))⟩)

/-- Nothing is done after the first element that fails. -/
theorem mapM_stops {act : α → Eval β} {before after earlier later : List α} {failing a : α}
    {bs bs₁ : List β} {q q' q₁ : Progress} {e : Abort} (h : before.mapM act p = .ok bs q)
    (he : act failing q = .error e q') (hsplit : before ++ failing :: after = earlier ++ a :: later)
    (hearlier : earlier.mapM act p = .ok bs₁ q₁) :
    ∃ later', before ++ [failing] = earlier ++ a :: later' := by
  rcases List.append_eq_append_iff.1 hsplit with ⟨rest, rfl, hrest⟩ | ⟨rest, rfl, hrest⟩
  · cases rest with
    | nil =>
      cases hrest
      exact ⟨[], by rw [List.append_nil]⟩
    | cons b rest =>
      -- The failing element would be among those that succeeded.
      cases hrest
      cases hearlier.symm.trans (mapM_error h he)
  · cases rest with
    | nil =>
      cases hrest
      exact ⟨[], by rw [List.append_nil]⟩
    | cons b rest =>
      cases hrest
      exact ⟨rest ++ [failing], by rw [List.append_assoc, List.cons_append]⟩

end Eval

/-- Decides a condition, given the types of its parts. -/
def Condition.conclude : Condition → List TypeId → Eval Bool
  | .eq _ _, [l, r] => return l = r
  | .sub _ _, [l, u] => Eval.ask (·.isSubtype l u)
  | .isTemplatized _, [t] => return (← Eval.ask (·.traits t)).isApplied
  | .isUnknown _, [t] => return t.isUnknown
  | _, _ => return false

theorem Condition.eval_eq (condition : Condition) (typeOf : Scope → NodeId → Eval TypeId)
    (scope : Scope) :
    condition.eval typeOf scope = condition.parts.mapM (typeOf scope) >>= condition.conclude := by
  cases condition with
  | eq | sub | isTemplatized | isUnknown =>
    simp only [parts, List.mapM_cons, List.mapM_nil, bind_assoc, pure_bind]
    rfl

section Rules

variable {typeOf typeOf' : Scope → NodeId → Eval TypeId} {holds holds' : Scope → NodeId → Eval Bool}
  {declared? : Name → Option TypeId} {scope : Scope} {p : Progress}

theorem Operation.eval_congr {op : Operation}
    (ht : ∀ {scope' id q}, op.Enters typeOf holds scope p .type scope' id q →
      typeOf' scope' id q = typeOf scope' id q)
    (hh : ∀ {scope' id q}, op.Enters typeOf holds scope p .condition scope' id q →
      holds' scope' id q = holds scope' id q) :
    op.eval typeOf' declared? holds' scope p = op.eval typeOf declared? holds scope p := by
  cases op with
  | var | empty | all | unknown => rfl
  | named name args =>
    refine Eval.bind_congr_at (Eval.mapM_congr_at ?_) fun _ _ _ => rfl
    rintro before arg after ts q rfl hbefore
    exact ht (.arg hbefore)
  | union operands =>
    refine Eval.bind_congr_at (Eval.mapM_congr_at ?_) fun _ _ _ => rfl
    rintro before operand after ts q rfl hbefore
    exact ht (.member hbefore)
  | cond test yes no =>
    refine Eval.bind_congr_at (hh .test) fun chosen q hchosen => ?_
    have hbranch := ht (.branch hchosen)
    cases chosen <;> exact hbranch
  | mapUnion source param body =>
    refine Eval.bind_congr_at (ht .source) fun t q hsource => ?_
    refine Eval.bind_congr_at rfl fun members q' hask => ?_
    obtain ⟨hmembers, rfl⟩ := Eval.ask_eq_ok_iff.1 hask
    refine Eval.bind_congr_at (Eval.mapM_congr_at ?_) fun _ _ _ => rfl
    intro before m after ts q₁ hsplit hbefore
    rw [hsplit] at hmembers
    exact ht (.body hsource hmembers hbefore)
  | rawTypeOf subject => exact Eval.bind_congr_at (ht .raw) fun _ _ _ => rfl
  | templateTypeOf subject place => exact Eval.bind_congr_at (ht .template) fun _ _ _ => rfl

theorem Condition.eval_congr {condition : Condition}
    (ht : ∀ {part q}, condition.Enters typeOf scope p part q → typeOf' scope part q = typeOf scope part q) :
    condition.eval typeOf' scope p = condition.eval typeOf scope p := by
  rw [Condition.eval_eq, Condition.eval_eq]
  refine Eval.bind_congr_at (Eval.mapM_congr_at ?_) fun _ _ _ => rfl
  intro before part after ts q hsplit hbefore
  exact ht ⟨before, after, ts, hsplit, hbefore⟩

/-- An operation fails when something fails that it comes to. -/
theorem Operation.Enters.error_of_type {op : Operation} {scope' : Scope} {id : NodeId}
    {q q' : Progress} {e : Abort} (h : op.Enters typeOf holds scope p .type scope' id q)
    (he : typeOf scope' id q = .error e q') : op.eval typeOf declared? holds scope p = .error e q' := by
  cases h with
  | arg hbefore => exact bind_apply_eq_error_iff.2 (.inl (Eval.mapM_error hbefore he))
  | member hbefore => exact bind_apply_eq_error_iff.2 (.inl (Eval.mapM_error hbefore he))
  | @branch test yes no chosen q hchosen =>
    refine bind_apply_eq_error_iff.2 (.inr ⟨chosen, q, hchosen, ?_⟩)
    cases chosen <;> exact he
  | source => exact bind_apply_eq_error_iff.2 (.inl he)
  | body hsource hmembers hbefore =>
    refine bind_apply_eq_error_iff.2 (.inr ⟨_, _, hsource, ?_⟩)
    refine bind_apply_eq_error_iff.2 (.inr ⟨_, _, Eval.ask_eq_ok_iff.2 ⟨hmembers, rfl⟩, ?_⟩)
    exact bind_apply_eq_error_iff.2 (.inl (Eval.mapM_error hbefore he))
  | raw => exact bind_apply_eq_error_iff.2 (.inl he)
  | template => exact bind_apply_eq_error_iff.2 (.inl he)

theorem Operation.Enters.of_union {operands : List NodeId} {place : Position} {scope' : Scope}
    {id : NodeId} {q : Progress}
    (h : Operation.Enters typeOf holds scope p (.union operands) place scope' id q) :
    ∃ before after ts, place = .type ∧ scope' = scope ∧ operands = before ++ id :: after ∧
      before.mapM (typeOf scope) p = .ok ts q := by
  cases h with
  | member hbefore => exact ⟨_, _, _, rfl, rfl, rfl, hbefore⟩

theorem Operation.Enters.error_of_condition {op : Operation} {scope' : Scope} {id : NodeId}
    {q q' : Progress} {e : Abort} (h : op.Enters typeOf holds scope p .condition scope' id q)
    (he : holds scope' id q = .error e q') : op.eval typeOf declared? holds scope p = .error e q' := by
  cases h with
  | test => exact bind_apply_eq_error_iff.2 (.inl he)

theorem Condition.Enters.error {condition : Condition} {part : NodeId} {q q' : Progress} {e : Abort}
    (h : condition.Enters typeOf scope p part q) (he : typeOf scope part q = .error e q') :
    condition.eval typeOf scope p = .error e q' := by
  obtain ⟨before, after, ts, hsplit, hbefore⟩ := h
  rw [Condition.eval_eq, hsplit]
  exact bind_apply_eq_error_iff.2 (.inl (Eval.mapM_error hbefore he))

end Rules

namespace Context

/-- What an evaluation reads of the arena, when it is at a node in the given position, with so much
room and from the given progress on. -/
inductive Reads (cx : Context) : Position → Nat → Scope → NodeId → Progress → Arena.Cell → Prop where
  | here {place room scope id p cell} : cx.arena.Looks cx.names place id cell →
      Reads cx place (room + 1) scope id p cell
  | operation {room scope id op p place scope' id' q cell} : cx.arena.Asks cx.names id op →
      op.Enters (cx.typeAt room) (cx.holdsAt room) scope p place scope' id' q →
      Reads cx place room scope' id' q cell → Reads cx .type (room + 1) scope id p cell
  | condition {room scope id condition p part q cell} : cx.arena.Tests cx.names id condition →
      condition.Enters (cx.typeAt room) scope p part q → Reads cx .type room scope part q cell →
      Reads cx .condition (room + 1) scope id p cell

/-- Over an arena that has the same wherever it is read, a node has the same evaluation. -/
theorem typeAt_and_holdsAt_of_reads (cx : Context) (a' : Arena) (room : Nat) :
    (∀ {scope id p}, (∀ cell, cx.Reads .type room scope id p cell → cx.arena.SameAt a' cell) →
        typeAt { cx with arena := a' } room scope id p = cx.typeAt room scope id p) ∧
      ∀ {scope id p}, (∀ cell, cx.Reads .condition room scope id p cell → cx.arena.SameAt a' cell) →
        holdsAt { cx with arena := a' } room scope id p = cx.holdsAt room scope id p := by
  induction room with
  | zero => exact ⟨fun _ => rfl, fun _ => rfl⟩
  | succ room ih =>
    obtain ⟨iht, ihh⟩ := ih
    constructor
    · intro scope id p h
      have hop := Arena.operation_congr fun cell hc => h cell (.here hc)
      rw [typeAt, typeAt, hop]
      refine Eval.bind_congr_at rfl fun op q hstart => ?_
      obtain ⟨hread, rfl⟩ := Eval.ofExcept_eq_ok_iff.1 hstart
      have hasks : cx.arena.Asks cx.names id op := Arena.operation_iff.1 hread
      refine Operation.eval_congr (fun henters => ?_) fun henters => ?_
      · exact iht fun cell hc => h cell (.operation hasks henters hc)
      · exact ihh fun cell hc => h cell (.operation hasks henters hc)
    · intro scope id p h
      have hcondition := Arena.condition_congr fun cell hc => h cell (.here hc)
      rw [holdsAt, holdsAt, hcondition]
      refine Eval.bind_congr_at rfl fun condition q hstart => ?_
      obtain ⟨hread, rfl⟩ := Eval.ofExcept_eq_ok_iff.1 hstart
      have htests : cx.arena.Tests cx.names id condition := Arena.condition_iff.1 hread
      refine Condition.eval_congr fun henters => ?_
      exact iht fun cell hc => h cell (.condition htests henters hc)

theorem evaluate_of_reads {cx : Context} {a' : Arena} {scope : Scope} {root : NodeId} {s : Store}
    (h : ∀ cell, cx.Reads .type (cx.limit.room 0) scope root ⟨s, []⟩ cell → cx.arena.SameAt a' cell) :
    evaluate { cx with arena := a' } scope root s = cx.evaluate scope root s := by
  unfold evaluate
  rw [(typeAt_and_holdsAt_of_reads cx a' (cx.limit.room 0)).1 h]

/-- The evaluation at a node in the given position ends in a fault. -/
def FaultsAt (cx : Context) (place : Position) (room : Nat) (scope : Scope) (id : NodeId)
    (p : Progress) : Prop :=
  match place with
  | .type => ∃ f q, cx.typeAt room scope id p = .error (.fault f) q
  | .condition => ∃ f q, cx.holdsAt room scope id p = .error (.fault f) q

theorem faultsAt_of_refuses {cx : Context} {place : Position} {room : Nat} {scope : Scope}
    {id : NodeId} {p : Progress} {f : Fault} (h : cx.arena.Refuses cx.names place id (.fault f)) :
    cx.FaultsAt place (room + 1) scope id p := by
  cases place with
  | type =>
    have hop : cx.arena.operation cx.names id = .error (.fault f) := h
    refine ⟨f, p, ?_⟩
    rw [typeAt, hop]
    rfl
  | condition =>
    have hcondition : cx.arena.condition cx.names id = .error (.fault f) := h
    refine ⟨f, p, ?_⟩
    rw [holdsAt, hcondition]
    rfl

/-- What an evaluation reads is there, unless the evaluation ends in a fault. -/
theorem Reads.faultsAt {cx : Context} {place : Position} {room : Nat} {scope : Scope} {id : NodeId}
    {p : Progress} {cell : Arena.Cell} (h : cx.Reads place room scope id p cell)
    (hl : cx.arena.Lacks cell) : cx.FaultsAt place room scope id p := by
  induction h with
  | here hlooks =>
    obtain ⟨f, hrefuses⟩ := hlooks.refuses hl
    exact faultsAt_of_refuses hrefuses
  | @operation room scope id op p place scope' id' q cell hasks henters _ ih =>
    have hop : cx.arena.operation cx.names id = .ok op := Arena.operation_iff.2 hasks
    cases place with
    | type =>
      obtain ⟨f, q', hf⟩ := ih hl
      refine ⟨f, q', ?_⟩
      rw [typeAt, hop]
      exact henters.error_of_type hf
    | condition =>
      obtain ⟨f, q', hf⟩ := ih hl
      refine ⟨f, q', ?_⟩
      rw [typeAt, hop]
      exact henters.error_of_condition hf
  | @condition room scope id condition p part q cell htests henters _ ih =>
    have hcondition : cx.arena.condition cx.names id = .ok condition := Arena.condition_iff.2 htests
    obtain ⟨f, q', hf⟩ := ih hl
    refine ⟨f, q', ?_⟩
    rw [holdsAt, hcondition]
    exact henters.error hf

/-- What is not read. -/
structure Lazy (cx : Context) : Prop where
  /-- Of a call that is refused for its name, its position or the number of its operands, no node is
  read but the call itself. -/
  refused : ∀ {place room scope id p e part}, cx.arena.Refuses cx.names place id (.error e) →
    (∀ op i expected, e ≠ .operandShape op i expected) →
    cx.Reads place room scope id p (.node part) → part = id
  /-- Of the branches of a choice only the one that the test has chosen is read. -/
  untaken : ∀ {room scope id test yes no p cell}, cx.arena.Asks cx.names id (.cond test yes no) →
    cx.Reads .type (room + 1) scope id p cell →
    cx.arena.Looks cx.names .type id cell ∨ cx.Reads .condition room scope test p cell ∨
      ∃ chosen q, cx.holdsAt room scope test p = .ok chosen q ∧
        cx.Reads .type room scope (if chosen then yes else no) q cell
  /-- Where there are no members the body of the function is not read. -/
  unmapped : ∀ {room scope id source param body p t q cell},
    cx.arena.Asks cx.names id (.mapUnion source param body) →
    cx.typeAt room scope source p = .ok t q → q.store.members t = .ok [] →
    cx.Reads .type (room + 1) scope id p cell →
    cx.arena.Looks cx.names .type id cell ∨ cx.Reads .type room scope source p cell
  /-- Of the operands of a union none is read after the first that fails. -/
  failed : ∀ {room scope id before failing after p ts q e q' cell},
    cx.arena.Asks cx.names id (.union (before ++ failing :: after)) →
    before.mapM (cx.typeAt room scope) p = .ok ts q →
    cx.typeAt room scope failing q = .error e q' → cx.Reads .type (room + 1) scope id p cell →
    cx.arena.Looks cx.names .type id cell ∨ ∃ earlier operand later ts₁ q₁,
      before ++ [failing] = earlier ++ operand :: later ∧
        earlier.mapM (cx.typeAt room scope) p = .ok ts₁ q₁ ∧ cx.Reads .type room scope operand q₁ cell

section Lazy

variable {cx : Context} {place : Position} {room : Nat} {scope : Scope} {id : NodeId} {p : Progress}
  {cell : Arena.Cell}

/-- Past the node itself, an evaluation reads what its operation comes to. -/
theorem Reads.exists_enters {op : Operation} (h : cx.Reads .type (room + 1) scope id p cell)
    (hasks : cx.arena.Asks cx.names id op) : cx.arena.Looks cx.names .type id cell ∨
      ∃ place scope' id' q, op.Enters (cx.typeAt room) (cx.holdsAt room) scope p place scope' id' q ∧
        cx.Reads place room scope' id' q cell := by
  cases h with
  | here hlooks => exact .inl hlooks
  | operation hasks' henters hreads =>
    have hop := Arena.operation_iff.2 hasks
    cases hop.symm.trans (Arena.operation_iff.2 hasks')
    exact .inr ⟨_, _, _, _, henters, hreads⟩

theorem Reads.looks_of_refuses {e : EvalError} (h : cx.Reads place room scope id p cell)
    (he : cx.arena.Refuses cx.names place id (.error e)) : cx.arena.Looks cx.names place id cell := by
  cases h with
  | here hlooks => exact hlooks
  | operation hasks => cases (Arena.operation_iff.2 hasks).symm.trans he
  | condition htests => cases (Arena.condition_iff.2 htests).symm.trans he

theorem lazy (cx : Context) : cx.Lazy where
  refused := by
    intro place room scope id p e part he hshape h
    exact (h.looks_of_refuses he).eq_of_refuses he hshape
  untaken := by
    intro room scope id test yes no p cell hasks h
    rcases h.exists_enters hasks with hlooks | ⟨place, scope', id', q, henters, hreads⟩
    · exact .inl hlooks
    · cases henters with
      | test => exact .inr (.inl hreads)
      | branch hchosen => exact .inr (.inr ⟨_, _, hchosen, hreads⟩)
  unmapped := by
    intro room scope id source param body p t q cell hasks hsource hmembers h
    rcases h.exists_enters hasks with hlooks | ⟨place, scope', id', q', henters, hreads⟩
    · exact .inl hlooks
    · cases henters with
      | source => exact .inr hreads
      | body hsource' hmembers' =>
        cases hsource.symm.trans hsource'
        have hsplit := hmembers.symm.trans hmembers'
        simp at hsplit
  failed := by
    intro room scope id before failing after p ts q e q' cell hasks hbefore hfails h
    rcases h.exists_enters hasks with hlooks | ⟨place, scope', id', q₁, henters, hreads⟩
    · exact .inl hlooks
    · obtain ⟨earlier, later, ts₁, rfl, rfl, hsplit, hearlier⟩ := henters.of_union
      obtain ⟨later', hlater⟩ := Eval.mapM_stops hbefore hfails hsplit hearlier
      exact .inr ⟨earlier, id', later', ts₁, q₁, hlater, hearlier, hreads⟩

end Lazy

/-- The outcome of an evaluation, its misses and the store it leaves are the same over every arena
that has the same nodes and operand lists wherever the evaluation reads them. What it does not come to
it does not read. And what it reads stays as it is when the arena grows. -/
theorem evaluate_lazy (cx : Context) (scope : Scope) (root : NodeId) (s : Store) :
    (∀ a' : Arena,
      (∀ cell, cx.Reads .type (cx.limit.room 0) scope root ⟨s, []⟩ cell → cx.arena.SameAt a' cell) →
        evaluate { cx with arena := a' } scope root s = cx.evaluate scope root s) ∧
      cx.Lazy ∧
      ((∀ f, (cx.evaluate scope root s).1 ≠ .error (.fault f)) → ∀ a', cx.arena.Grown a' →
        evaluate { cx with arena := a' } scope root s = cx.evaluate scope root s) := by
  refine ⟨fun a' => evaluate_of_reads, lazy cx, fun hf a' hgrown => ?_⟩
  refine evaluate_of_reads fun cell hcell => hgrown.sameAt fun hlacks => ?_
  obtain ⟨f, q, hfault⟩ := hcell.faultsAt hlacks
  refine hf f ?_
  unfold evaluate
  rw [hfault]

end Context

/-- `mapunion(none(), (x) => …)` at node 2, where node 3 stands for the body. -/
def Arena.bodyless (body : Node) : Arena :=
  ⟨#[.call ⟨0, 1⟩ ⟨0, 0⟩, .function ⟨0, 2⟩ ⟨3⟩, .call ⟨7, 0⟩ ⟨0, 2⟩, body], #[⟨0⟩, ⟨1⟩]⟩

def Context.bodyless (body : Node) : Context := ⟨.new .byScalars, .bodyless body, fun _ => none, ⟨2⟩⟩

theorem Context.bodyless_not_reads :
    ¬(bodyless (.int 7)).Reads .type 2 .empty ⟨2⟩ ⟨.new, []⟩ (.node ⟨3⟩) := by
  intro h
  have hmap : (Arena.bodyless (.int 7)).Calls (.new .byScalars) ⟨2⟩ "mapunion" [⟨0⟩, ⟨1⟩] :=
    ⟨⟨7, 0⟩, ⟨0, 2⟩, rfl, rfl, rfl⟩
  have hnone : (Arena.bodyless (.int 7)).Calls (.new .byScalars) ⟨0⟩ "none" [] :=
    ⟨⟨0, 1⟩, ⟨0, 0⟩, rfl, rfl, rfl⟩
  have hsource : (bodyless (.int 7)).typeAt 1 .empty ⟨0⟩ ⟨.new, []⟩ = .ok .empty ⟨.new, []⟩ := rfl
  rcases (lazy (bodyless (.int 7))).unmapped ⟨⟨1⟩, hmap, rfl⟩ hsource rfl h with hlooks | hreads
  · rcases hlooks.mem_of_calls hmap with hself | hmem
    · cases hself
    · exact absurd hmem (by decide)
  · have hasks : (Arena.bodyless (.int 7)).Asks (.new .byScalars) ⟨0⟩ .empty := hnone
    rcases hreads.exists_enters hasks with hlooks | ⟨_, _, _, _, henters, -⟩
    · rcases hlooks.mem_of_calls hnone with hself | hmem
      · cases hself
      · cases hmem
    · cases henters

/-- The body is a number, or the call whose function it is the body of; and later the arena may be
asked for anything. -/
theorem Context.bodyless_evaluate_lazy :
    ((bodyless (.int 7)).evaluate .empty ⟨2⟩ .new).1 = .ok ⟨.empty, []⟩ ∧
      (bodyless (.call ⟨7, 0⟩ ⟨0, 2⟩)).evaluate .empty ⟨2⟩ .new =
        (bodyless (.int 7)).evaluate .empty ⟨2⟩ .new ∧
      ∀ request id a', Arena.Request.make request (.bodyless (.int 7)) = .ok id a' →
        evaluate { bodyless (.int 7) with arena := a' } .empty ⟨2⟩ .new =
          (bodyless (.int 7)).evaluate .empty ⟨2⟩ .new := by
  have hend : ((bodyless (.int 7)).evaluate .empty ⟨2⟩ .new).1 = .ok ⟨.empty, []⟩ := rfl
  obtain ⟨hframe, -, hgrown⟩ := (bodyless (.int 7)).evaluate_lazy .empty ⟨2⟩ .new
  refine ⟨hend, hframe (.bodyless (.call ⟨7, 0⟩ ⟨0, 2⟩)) fun cell hcell => ?_, ?_⟩
  · match cell with
    | .operands range => rfl
    | .node ⟨0⟩ | .node ⟨1⟩ | .node ⟨2⟩ => rfl
    | .node ⟨3⟩ => exact absurd hcell bodyless_not_reads
    | .node ⟨i + 4⟩ => rfl
  · intro request id a' hmake
    refine hgrown (fun f hf => ?_) a' (.make .refl (congrArg finalState hmake))
    cases hend.symm.trans hf

end TypeCalculus
