import Zakura.HeaderChain.Types

/-!
Projections of the header graph: a path of frontiers with consecutive heights, the
delta between two of them, and the two readers of that delta.
-/

namespace Zakura.HeaderChain

open List Option

structure ProjectionDelta where
  removeBefore : Option Nat
  removeFrom : Option Nat
  put : List Frontier
deriving DecidableEq, Repr

/-- The position of the first entry at or above a height. -/
def partitionPoint (height : Nat) (path : List Frontier) : Nat :=
  (path.takeWhile (·.height < height)).length

def commonLength (left right : List Frontier) : Nat :=
  ((left.zip right).takeWhile fun pair => pair.1 = pair.2).length

def projectionDelta (old new : List Frontier) : ProjectionDelta :=
  let removeBefore := new.head?.bind fun first =>
    if old.head?.any (·.height < first.height) then some first.height else none
  let oldStart := (removeBefore.map (partitionPoint · old)).getD 0
  let comparableOld := old.drop oldStart
  let common := commonLength comparableOld new
  { removeBefore := removeBefore
    removeFrom := (comparableOld[common]?.or new[common]?).map (·.height)
    put := new.drop common }

def mergeProjectionDelta (projection : List Frontier) (delta : ProjectionDelta) : List Frontier :=
  let projection := match delta.removeBefore with
    | some height => projection.filter (height ≤ ·.height)
    | none => projection
  let projection := match delta.removeFrom with
    | some height => projection.filter (·.height < height)
    | none => projection
  projection ++ delta.put

structure FrontierSet where
  finalized : Frontier
  headerBest : Frontier
  verifiedBest : Frontier
deriving DecidableEq, Repr

structure EngineProjections where
  selectedProjection : List Frontier
  verifiedProjection : List Frontier
deriving DecidableEq, Repr

inductive InvariantViolation
  | snapshotBeforeCommit
deriving DecidableEq, Repr

/-- The path a verifier reads from a delta, for an engine that agrees with its snapshot. -/
def projectedPath (engine : EngineProjections) (source : FrontierSet) (delta : ProjectionDelta)
    (selected : Bool) : Except InvariantViolation (List Frontier) :=
  let tip := if selected then source.headerBest else source.verifiedBest
  let path := if selected then engine.selectedProjection else engine.verifiedProjection
  if path.getLast? ≠ some tip ∨ path.head? ≠ some source.finalized then
    .error .snapshotBeforeCommit
  else
    let path := match delta.removeBefore with
      | some removeBefore => path.filter (removeBefore ≤ ·.height)
      | none => path
    let path := match delta.removeFrom with
      | some removeFrom => path.filter (·.height < removeFrom)
      | none => path
    .ok (path ++ delta.put)

/-- Entries of consecutive heights, the first at the given one. -/
def ConsecutiveFrom (start : Nat) : List Frontier → Prop
  | [] => True
  | first :: rest => first.height = start ∧ ConsecutiveFrom (start + 1) rest

namespace ConsecutiveFrom

variable {start position : Nat} {path : List Frontier} (consecutive : ConsecutiveFrom start path)
include consecutive

theorem drop (count : Nat) : ConsecutiveFrom (start + count) (path.drop count) := by
  induction count generalizing start path with
  | zero => exact consecutive
  | succ count ih =>
    cases path with
    | nil => trivial
    | cons first rest =>
      have later := ih consecutive.2
      rwa [Nat.add_assoc, Nat.add_comm 1 count] at later

theorem height_getElem? {frontier : Frontier} (found : path[position]? = some frontier) :
    frontier.height = start + position := by
  have later := consecutive.drop position
  rw [← head?_drop] at found
  cases rest : path.drop position with
  | nil => simp [rest] at found
  | cons first _ =>
    rw [rest] at later found
    exact some.inj found ▸ later.1

theorem filter_le (bound : Nat) : path.filter (bound ≤ ·.height) = path.drop (bound - start) := by
  induction path generalizing start with
  | nil => simp
  | cons first rest ih =>
    rw [filter_cons, consecutive.1, ih consecutive.2]
    by_cases reached : bound ≤ start
    · simp [reached, Nat.sub_eq_zero_of_le, Nat.le_succ_of_le]
    · rw [show bound - start = bound - (start + 1) + 1 by omega]
      simp [reached]

theorem filter_lt (bound : Nat) : path.filter (·.height < bound) = path.take (bound - start) := by
  induction path generalizing start with
  | nil => simp
  | cons first rest ih =>
    rw [filter_cons, consecutive.1, ih consecutive.2]
    by_cases below : start < bound
    · rw [show bound - start = bound - (start + 1) + 1 by omega]
      simp [below]
    · simp [below, show bound - start = 0 by omega, show bound - (start + 1) = 0 by omega]

theorem partitionPoint_eq (bound : Nat) :
    path.drop (partitionPoint bound path) = path.drop (bound - start) := by
  induction path generalizing start with
  | nil => simp
  | cons first rest ih =>
    have later := ih consecutive.2
    by_cases below : start < bound
    · rw [show bound - start = bound - (start + 1) + 1 by omega, drop_succ_cons, ← later]
      simp [partitionPoint, consecutive.1, below]
    · simp [partitionPoint, consecutive.1, below, show bound - start = 0 by omega]

end ConsecutiveFrom

theorem take_commonLength (left right : List Frontier) :
    left.take (commonLength left right) = right.take (commonLength left right) := by
  induction left generalizing right with
  | nil => cases right <;> simp [commonLength]
  | cons first rest ih =>
    cases right with
    | nil => simp [commonLength]
    | cons other others =>
      by_cases same : first = other
      · have later := ih others
        simp only [commonLength] at later
        simp [commonLength, same, later]
      · simp [commonLength, same]

/-- The new path keeps the common entries of the old one and replaces what is after them. -/
theorem replace_after_common {start : Nat} {old new : List Frontier}
    (oldPath : ConsecutiveFrom start old) (newPath : ConsecutiveFrom start new) :
    (match (old[commonLength old new]?.or new[commonLength old new]?).map (·.height) with
      | some height => old.filter (·.height < height)
      | none => old) ++ new.drop (commonLength old new) = new := by
  have same := take_commonLength old new
  generalize commonLength old new = common at same ⊢
  have kept : (match (old[common]?.or new[common]?).map (·.height) with
      | some height => old.filter (·.height < height)
      | none => old) = old.take common := by
    cases replaced : old[common]? with
    | some frontier =>
      simp only [some_or, map_some]
      rw [oldPath.filter_lt, oldPath.height_getElem? replaced, Nat.add_sub_cancel_left]
    | none =>
      cases added : new[common]? with
      | some frontier =>
        simp only [none_or, map_some]
        rw [oldPath.filter_lt, newPath.height_getElem? added, Nat.add_sub_cancel_left]
      | none => exact (take_of_length_le (getElem?_eq_none_iff.mp replaced)).symm
  rw [kept, same, take_append_drop]

/-- A nonempty path of consecutive heights. -/
structure IsProjection (path : List Frontier) (first : Frontier) : Prop where
  head : path.head? = some first
  consecutive : ConsecutiveFrom first.height path

/-- For every two projections of which the new one starts no lower: the delta between them turns
the old one into the new one, for the engine that installs it and for the verifier that reads it
against the engine's own frontiers. -/
theorem projectionDelta_round_trip {old new : List Frontier} {oldFirst newFirst : Frontier}
    (oldPath : IsProjection old oldFirst) (newPath : IsProjection new newFirst)
    (rises : oldFirst.height ≤ newFirst.height) :
    mergeProjectionDelta old (projectionDelta old new) = new ∧
      ∀ engine source selected,
        (if selected then engine.selectedProjection else engine.verifiedProjection) = old →
        source.finalized = oldFirst →
        old.getLast? = some (if selected then source.headerBest else source.verifiedBest) →
        projectedPath engine source (projectionDelta old new) selected = .ok new := by
  have merged : mergeProjectionDelta old (projectionDelta old new) = new := by
    have comparable := oldPath.consecutive.drop (newFirst.height - oldFirst.height)
    rw [Nat.add_sub_cancel' rises] at comparable
    have replaced := replace_after_common comparable newPath.consecutive
    simp only [mergeProjectionDelta, projectionDelta, oldPath.head, newPath.head,
      bind_some, any_some, decide_eq_true_eq]
    by_cases trimmed : oldFirst.height < newFirst.height
    · simp only [if_pos trimmed, map_some, getD_some,
        oldPath.consecutive.partitionPoint_eq, oldPath.consecutive.filter_le]
      exact replaced
    · rw [Nat.sub_eq_zero_of_le (by omega), drop_zero] at replaced
      simp only [if_neg trimmed, map_none, getD_none, drop_zero]
      exact replaced
  refine ⟨merged, ?_⟩
  intro engine source selected isOld isFinalized isTip
  have agrees : ¬ (old.getLast? ≠ some (if selected then source.headerBest
      else source.verifiedBest) ∨ old.head? ≠ some source.finalized) := by
    simp [isTip, oldPath.head, isFinalized]
  simp only [projectedPath, isOld, if_neg agrees]
  exact congrArg Except.ok merged

namespace ProjectionSample

def frontier (height : Nat) (branch : BitVec 256) : Frontier := ⟨height, ⟨branch⟩⟩

def before : List Frontier := [frontier 0 0, frontier 1 1, frontier 2 2]

/-- The header at height two is replaced while finality moves to height one. -/
def after : List Frontier := [frontier 1 1, frontier 2 3, frontier 3 4]

theorem projectionDelta_round_trip_of_fork :
    projectionDelta before after = ⟨some 1, some 2, [frontier 2 3, frontier 3 4]⟩ ∧
      mergeProjectionDelta before (projectionDelta before after) = after :=
  have old : IsProjection before (frontier 0 0) := ⟨rfl, rfl, rfl, rfl, trivial⟩
  have new : IsProjection after (frontier 1 1) := ⟨rfl, rfl, rfl, rfl, trivial⟩
  ⟨by decide, (projectionDelta_round_trip old new (by decide)).1⟩

end ProjectionSample

end Zakura.HeaderChain
