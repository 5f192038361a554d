/-!
A bound on how deep a recursion may go. Levels are counted from 0, and a level can be entered as
long as its depth is below the limit.
-/

namespace TypeCalculus

structure DepthLimit where
  max : Nat
  deriving DecidableEq, Repr

structure DepthExceeded where
  max : Nat
  deriving DecidableEq, Repr

def DepthExceeded.message (e : DepthExceeded) : String :=
  s!"recursion depth limit of {e.max} exceeded"

namespace DepthLimit

/-- The limit for expressions written by hand. -/
def standard : DepthLimit := ⟨512⟩

/-- The limit for expressions from an untrusted source. -/
def bounded : DepthLimit := ⟨64⟩

/-- Enters the level at `depth`; the answer is the depth of the levels below it. -/
def descend (limit : DepthLimit) (depth : Nat) : Except DepthExceeded Nat :=
  if depth < limit.max then .ok (depth + 1) else .error ⟨limit.max⟩

/-- How many levels, one below the other, can be entered from `depth` on. -/
def room (limit : DepthLimit) (depth : Nat) : Nat := limit.max - depth

theorem descend_eq_error_iff {limit : DepthLimit} {depth : Nat} {e : DepthExceeded} :
    limit.descend depth = .error e ↔ limit.room depth = 0 ∧ e = ⟨limit.max⟩ := by
  unfold descend room
  split <;> simp [eq_comm] <;> omega

theorem room_of_descend {limit : DepthLimit} {depth below : Nat}
    (h : limit.descend depth = .ok below) : limit.room depth = limit.room below + 1 := by
  unfold descend at h
  split at h
  · cases h
    unfold room
    omega
  · cases h

end DepthLimit

end TypeCalculus
