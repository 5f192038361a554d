import TypeCalculus.Proofs.Expression.Heights

/-!
Requests to an arena, one after the other, of which some may be refused. Every node that was made can
be read ever after, and through its range the operands of a call, although all calls share one list of
operands. A request that is refused leaves nothing behind.
-/

namespace TypeCalculus

namespace Arena

/-- There are not more operands than a call can have. -/
abbrev Request.Fits (request : Request) : Prop := request.operands.length ≤ maxOperands

variable {a b : Arena} {request : Request} {requests : List Request} {node : Node} {id : NodeId}
  {range : OperandRange} {f : Fault} {entries : List (Request × NodeId)}

theorem number_of_make_ok (h : request.make a = .ok id b) : id = ⟨a.size⟩ ∧ b.size = a.size + 1 := by
  obtain ⟨range, a', hstore, hadd⟩ := make_eq_ok_iff.1 h
  obtain ⟨-, rfl, rfl⟩ := add_eq_ok_iff.1 hadd
  have hsize : a'.size = a.size := size_of_store hstore
  have hpush : (a'.nodes.push (request.node range)).size = a'.size + 1 := Array.size_push _
  exact ⟨congrArg NodeId.mk hsize, hpush.trans (congrArg (· + 1) hsize)⟩

theorem size_of_make_error (h : request.make a = .error f b) : b.size = a.size := by
  rcases make_eq_error_iff.1 h with ⟨-, rfl⟩ | ⟨range, hstore, -⟩
  · rfl
  · exact size_of_store hstore

/-- The node is what was asked for, and through its range the operands are. -/
def Gives (a : Arena) (id : NodeId) (request : Request) : Prop :=
  ∃ range, a.node id = .ok (request.node range) ∧ a.slice range = .ok request.operands

theorem Gives.of_grown (hgrown : a.Grown b) (h : a.Gives id request) : b.Gives id request := by
  obtain ⟨range, hnode, hslice⟩ := h
  exact ⟨range, node_of_grown hgrown hnode, slice_of_grown hgrown hslice⟩

theorem gives_of_make (h : request.make a = .ok id b) : b.Gives id request := by
  obtain ⟨range, a', hstore, hadd⟩ := make_eq_ok_iff.1 h
  exact ⟨range, node_of_add hadd, slice_of_grown (.add .refl hadd) (slice_of_store hstore)⟩

section Ranges

/-- The node is a call, and its operands are in this range. -/
def HasRange (a : Arena) (id : NodeId) (range : OperandRange) : Prop :=
  ∃ callee, a.node id = .ok (.call callee range)

/-- The range is one that a call can have, and lies within the operands that are stored. -/
structure Covers (a : Arena) (range : OperandRange) : Prop where
  start : range.start < capacity
  length : range.length ≤ maxOperands
  stop : range.stop ≤ a.operands.size

/-- The range is covered, and all calls have their operands before it. -/
structure Behind (a : Arena) (range : OperandRange) : Prop extends a.Covers range where
  calls : ∀ {id range'}, a.HasRange id range' → range'.stop ≤ range.start

/-- Every call has a range that is covered, behind those of earlier calls. -/
structure Laid (a : Arena) : Prop where
  covers : ∀ {id range}, a.HasRange id range → a.Covers range
  apart : ∀ {id id' range range'}, a.HasRange id range → a.HasRange id' range' →
    id.index < id'.index → range.stop ≤ range'.start

theorem HasRange.lt_size (h : a.HasRange id range) : id.index < a.size :=
  lt_size_of_node h.choose_spec

theorem Covers.of_grown (hgrown : a.Grown b) (h : a.Covers range) : b.Covers range :=
  ⟨h.start, h.length, h.stop.trans hgrown.size_le.2⟩

theorem Laid.addOperands (h : a.Laid) {ids : List NodeId}
    (hadd : a.addOperands ids = .ok (range, b)) : b.Laid ∧ b.Behind range := by
  have hgrown : a.Grown b := .addOperands .refl hadd
  obtain ⟨hstart, hlength, rfl, rfl⟩ := addOperands_eq_ok_iff.1 hadd
  have hcovers : Covers { a with operands := a.operands ++ ids.toArray }
      ⟨a.operands.size, ids.length⟩ :=
    ⟨hstart, hlength, by simp [OperandRange.stop]⟩
  refine ⟨⟨fun hr => (h.covers hr).of_grown hgrown, fun hr hr' => h.apart hr hr'⟩, hcovers, ?_⟩
  exact fun hr => (h.covers hr).stop

theorem Laid.add (h : a.Laid) (hadd : a.add node = .ok (id, b))
    (hbehind : ∀ callee range, node = .call callee range → a.Behind range) : b.Laid := by
  have hgrown : a.Grown b := .add .refl hadd
  have hcases : ∀ {id range}, b.HasRange id range →
      a.HasRange id range ∨ id.index = a.size ∧ a.Behind range := by
    rintro id range ⟨callee, hn⟩
    rcases node_add_cases hadd hn with hold | ⟨hid, hnew⟩
    · exact .inl ⟨callee, hold⟩
    · exact .inr ⟨hid, hbehind callee range hnew.symm⟩
  constructor
  · intro id range hr
    have hcovers : a.Covers range := (hcases hr).elim h.covers fun hnew => hnew.2.toCovers
    exact hcovers.of_grown hgrown
  · intro id id' range range' hr hr' hlt
    have hlast : id'.index ≤ a.size := by
      rcases hcases hr' with hold' | ⟨hid', -⟩
      · exact Nat.le_of_lt hold'.lt_size
      · exact Nat.le_of_eq hid'
    -- No node is behind the new one, so the earlier one of the two was there before.
    have hold : a.HasRange id range :=
      (hcases hr).resolve_right fun hnew => Nat.ne_of_lt (Nat.lt_of_lt_of_le hlt hlast) hnew.1
    rcases hcases hr' with hold' | ⟨-, hnew⟩
    · exact h.apart hold hold' hlt
    · exact hnew.calls hold

theorem Laid.store (h : a.Laid) (hstore : a.store request = .ok (range, b)) : b.Laid ∧
    ∀ callee range', request.node range = .call callee range' → b.Behind range' := by
  rcases store_ok_cases hstore with ⟨rfl, -, -, hno⟩ | hadd
  · exact ⟨h, fun callee range' hcall => absurd hcall (hno callee range')⟩
  · obtain ⟨hlaid, hbehind⟩ := h.addOperands hadd
    refine ⟨hlaid, fun callee range' hcall => ?_⟩
    obtain ⟨rfl, -⟩ := Request.eq_call_of_node hcall
    exact hbehind

theorem Laid.make_ok (h : a.Laid) (hmake : request.make a = .ok id b) : b.Laid := by
  obtain ⟨range, a', hstore, hadd⟩ := make_eq_ok_iff.1 hmake
  obtain ⟨hlaid, hcall⟩ := h.store hstore
  exact hlaid.add hadd hcall

theorem Laid.make_error (h : a.Laid) (hmake : request.make a = .error f b) : b.Laid := by
  rcases make_eq_error_iff.1 hmake with ⟨-, rfl⟩ | ⟨range, hstore, -⟩
  · exact h
  · exact (h.store hstore).1

end Ranges

section Runs

/-- The arena after the requests, of which some may have been refused. -/
def run (a : Arena) (requests : List Request) : Arena :=
  requests.foldl (fun a request => finalState (request.make a)) a

/-- The requests for which a node was made, each with its node. -/
def served : Arena → List Request → List (Request × NodeId)
  | _, [] => []
  | a, request :: requests =>
    match request.make a with
    | .ok id a => (request, id) :: a.served requests
    | .error _ a => a.served requests

theorem run_of_ok (h : request.make a = .ok id b) (requests : List Request) :
    a.run (request :: requests) = b.run requests := by
  rw [run, List.foldl_cons, h]
  rfl

theorem run_of_error (h : request.make a = .error f b) (requests : List Request) :
    a.run (request :: requests) = b.run requests := by
  rw [run, List.foldl_cons, h]
  rfl

theorem served_of_ok (h : request.make a = .ok id b) (requests : List Request) :
    a.served (request :: requests) = (request, id) :: b.served requests := by
  rw [served, h]

theorem served_of_error (h : request.make a = .error f b) (requests : List Request) :
    a.served (request :: requests) = b.served requests := by
  rw [served, h]

theorem run_append (earlier later : List Request) :
    a.run (earlier ++ later) = (a.run earlier).run later :=
  List.foldl_append

theorem grown_run (a : Arena) (requests : List Request) : a.Grown (a.run requests) := by
  induction requests generalizing a with
  | nil => exact .refl
  | cons request requests ih => exact (Grown.make .refl rfl).trans (ih _)

/-- The nodes are those that were asked for, numbered in a row. -/
structure Keeps (a : Arena) (entries : List (Request × NodeId)) : Prop where
  numbered : entries.map Prod.snd = (List.range a.size).map NodeId.mk
  gives : ∀ request id, (request, id) ∈ entries → a.Gives id request
  laid : a.Laid

theorem keeps_empty : empty.Keeps [] :=
  ⟨rfl, nofun, ⟨nofun, nofun⟩⟩

theorem Keeps.make_ok (h : a.Keeps entries) (hmake : request.make a = .ok id b) :
    b.Keeps (entries ++ [(request, id)]) := by
  have hgrown : a.Grown b := Grown.make .refl (congrArg finalState hmake)
  obtain ⟨hid, hsize⟩ := number_of_make_ok hmake
  refine ⟨?_, fun request' id' hmem => ?_, h.laid.make_ok hmake⟩
  · rw [List.map_append, h.numbered, hsize, List.range_succ, List.map_append, hid]
    rfl
  · rcases List.mem_append.1 hmem with hold | hnew
    · exact (h.gives request' id' hold).of_grown hgrown
    · cases List.mem_singleton.1 hnew
      exact gives_of_make hmake

theorem Keeps.make_error (h : a.Keeps entries) (hmake : request.make a = .error f b) :
    b.Keeps entries := by
  have hgrown : a.Grown b := Grown.make .refl (congrArg finalState hmake)
  refine ⟨?_, fun request id hmem => (h.gives request id hmem).of_grown hgrown,
    h.laid.make_error hmake⟩
  rw [size_of_make_error hmake]
  exact h.numbered

theorem Keeps.run (h : a.Keeps entries) (requests : List Request) :
    (a.run requests).Keeps (entries ++ a.served requests) := by
  induction requests generalizing a entries with
  | nil =>
    rw [Arena.served, List.append_nil]
    exact h
  | cons request requests ih =>
    cases hmake : request.make a with
    | ok id b =>
      have hkeeps := ih (h.make_ok hmake)
      rwa [run_of_ok hmake, served_of_ok hmake, List.append_cons]
    | error f b =>
      rw [run_of_error hmake, served_of_error hmake]
      exact ih (h.make_error hmake)

theorem exists_make_of_fits (hnodes : a.size < capacity) (hoperands : a.operands.size < capacity)
    (h : request.Fits) : ∃ id b, request.make a = .ok id b := by
  have hstored : ∃ range a', a.store request = .ok (range, a') := by
    cases request with
    | call callee operands => exact ⟨_, _, addOperands_eq_ok_iff.2 ⟨hoperands, h, rfl, rfl⟩⟩
    | var | str | int | function => exact ⟨_, a, rfl⟩
  obtain ⟨range, a', hstore⟩ := hstored
  have hroom : a'.size < capacity := by rwa [size_of_store hstore]
  exact ⟨_, _, make_eq_ok_iff.2 ⟨range, a', hstore, add_eq_ok_iff.2 ⟨hroom, rfl, rfl⟩⟩⟩

theorem make_of_not_fits (hoperands : a.operands.size < capacity) (h : ¬request.Fits) :
    request.make a = .error .tooManyOperands a := by
  have hstore : a.store request = .error .tooManyOperands := by
    cases request with
    | call callee operands =>
      have hmany : maxOperands < operands.length := Nat.not_le.1 h
      change a.addOperands operands = _
      unfold Arena.addOperands
      rw [if_neg (Nat.not_le.2 hoperands), if_pos hmany]
    | var | str | int | function => exact absurd (Nat.zero_le _) h
  exact make_eq_error_iff.2 (.inl ⟨hstore, rfl⟩)

/-- As long as there is room, only the number of operands decides. -/
theorem make_cases (request : Request) (hnodes : a.size < capacity)
    (hoperands : a.operands.size < capacity) : (request.Fits ∧ ∃ id b, request.make a = .ok id b) ∨
      ¬request.Fits ∧ request.make a = .error .tooManyOperands a := by
  by_cases h : request.Fits
  · exact .inl ⟨h, exists_make_of_fits hnodes hoperands h⟩
  · exact .inr ⟨h, make_of_not_fits hoperands h⟩

theorem served_eq_filter (hnodes : (a.run requests).size < capacity)
    (hoperands : (a.run requests).operands.size < capacity) :
    (a.served requests).map Prod.fst = requests.filter (·.Fits) := by
  induction requests generalizing a with
  | nil => rfl
  | cons request requests ih =>
    -- Nothing leaves the arena, so where there is room at the end there was room all along.
    have hsize := (grown_run a (request :: requests)).size_le
    have hroom := make_cases request (hsize.1.trans_lt hnodes) (hsize.2.trans_lt hoperands)
    rcases hroom with ⟨hfits, id, b, hmake⟩ | ⟨hfits, hmake⟩
    · rw [run_of_ok hmake] at hnodes hoperands
      rw [served_of_ok hmake, List.map_cons, ih hnodes hoperands,
        List.filter_cons_of_pos (by simpa using hfits)]
    · rw [run_of_error hmake] at hnodes hoperands
      rw [served_of_error hmake, ih hnodes hoperands,
        List.filter_cons_of_neg (by simpa using hfits)]

/-- What comes of requests to a new arena. A request is refused for its number of operands only, and
then the arena stays as it is. -/
structure GivesBack (requests : List Request) : Prop where
  served : (empty.served requests).map Prod.fst = requests.filter (·.Fits)
  keeps : (empty.run requests).Keeps (empty.served requests)
  each : ∀ earlier request later, requests = earlier ++ request :: later →
    match request.make (empty.run earlier) with
    | .ok id a => request.Fits ∧ ∃ node, a.node id = .ok node ∧ (empty.run requests).node id = .ok node
    | .error f a => ¬request.Fits ∧ f = .tooManyOperands ∧ a = empty.run earlier

theorem run_gives_back (hnodes : (empty.run requests).size < capacity)
    (hoperands : (empty.run requests).operands.size < capacity) : GivesBack requests := by
  refine ⟨served_eq_filter hnodes hoperands, keeps_empty.run requests, ?_⟩
  rintro earlier request later rfl
  rw [run_append] at hnodes hoperands ⊢
  generalize empty.run earlier = a at hnodes hoperands ⊢
  have hsize := (grown_run a (request :: later)).size_le
  have hroom := make_cases request (hsize.1.trans_lt hnodes) (hsize.2.trans_lt hoperands)
  rcases hroom with ⟨hfits, id, b, hmake⟩ | ⟨hfits, hmake⟩
  · obtain ⟨range, hnode, -⟩ := gives_of_make hmake
    have hlasts : (b.run later).node id = .ok (request.node range) :=
      node_of_grown (grown_run b later) hnode
    rw [run_of_ok hmake, hmake]
    exact ⟨hfits, _, hnode, hlasts⟩
  · rw [hmake]
    exact ⟨hfits, rfl, rfl⟩

/-- The third of these requests is refused if it comes with too many operands. -/
def overlong (operands : List NodeId) : List Request :=
  [.var .empty, .call .empty [⟨0⟩, ⟨0⟩], .call .empty operands, .call .empty [],
    .function .empty ⟨2⟩]

theorem overlong_run {operands : List NodeId} (h : maxOperands < operands.length) :
    empty.run (overlong operands) =
      ⟨#[.var .empty, .call .empty ⟨0, 2⟩, .call .empty ⟨2, 0⟩, .function .empty ⟨2⟩],
        #[⟨0⟩, ⟨0⟩]⟩ := by
  have hrefused : ¬(Request.call .empty operands).Fits := Nat.not_le.2 h
  unfold overlong run
  simp only [List.foldl_cons, List.foldl_nil]
  rw [make_of_not_fits (by decide) hrefused]
  rfl

theorem overlong_gives_back : GivesBack (overlong (List.replicate 0x10000 ⟨0⟩)) := by
  have hlong : maxOperands < (List.replicate 0x10000 (⟨0⟩ : NodeId)).length := by
    rw [List.length_replicate]
    decide
  have hrun := overlong_run hlong
  exact run_gives_back (by rw [hrun]; decide) (by rw [hrun]; decide)

end Runs

end Arena

end TypeCalculus
