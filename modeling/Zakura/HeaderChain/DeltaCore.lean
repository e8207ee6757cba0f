import Zakura.HeaderChain.OverlayCore
import Zakura.Lib.RowIndex

/-!
The sparse delta an overlay leaves behind: how it is read off, rebuilt into an
overlay over the same store, validated at its changed boundary and applied.
-/

namespace Zakura.HeaderChain

open FiniteMap

inductive WorkCoordinateTransition
  | preserveCoordinates
  | rebaseToFinalizedFrontier
deriving DecidableEq, Repr

structure GraphDelta where
  baseRevision : Nat
  workCoordinateTransition : WorkCoordinateTransition
  finalizedFrontier : Option Frontier
  updatedHeaderNodes : List HeaderNode
  deletedHeaderHashes : List Hash
  retiredFinalizedPathNodes : List HeaderNode
  newConsensusInvalidBodyTombstones : List ConsensusInvalidBodyTombstone
deriving DecidableEq

namespace GraphDelta

def isEmpty (delta : GraphDelta) : Bool :=
  delta.finalizedFrontier.isNone && delta.updatedHeaderNodes.isEmpty &&
    delta.deletedHeaderHashes.isEmpty && delta.newConsensusInvalidBodyTombstones.isEmpty

/-- The input errors of `from_delta`: rows that would overwrite each other in its maps, and
deletions or retired rows that contradict the store. -/
def inputError (delta : GraphDelta) (base : MemHeaderStore) : Option GraphError :=
  let updated := indexBy HeaderNode.hash delta.updatedHeaderNodes
  let retired := indexBy HeaderNode.hash delta.retiredFinalizedPathNodes
  (((((firstDuplicate (delta.updatedHeaderNodes.map HeaderNode.hash)).map
    GraphError.duplicateHeaderNode).or
  ((firstDuplicate delta.deletedHeaderHashes).map GraphError.duplicateHeaderNode)).or
  (delta.deletedHeaderHashes.findSome? fun hash =>
    if hash ∈ updated.keys then some (.duplicateHeaderNode hash)
    else if hash ∉ base.nodes.keys then some (.unknownHeaderNode hash)
    else none)).or
  ((firstDuplicate (delta.retiredFinalizedPathNodes.map HeaderNode.hash)).map
    GraphError.duplicateHeaderNode)).or
  ((retired.values.findSome? fun node =>
    if node.hash ∈ base.nodes.keys ∨ node.hash ∈ updated.keys then
      some (.duplicateHeaderNode node.hash)
    else none).or
  ((firstDuplicate (delta.newConsensusInvalidBodyTombstones.map
    ConsensusInvalidBodyTombstone.hash)).map GraphError.duplicateHeaderNode))

/-- The child edges of inserted rows whose parent the projected graph retains. -/
def addedChildren (delta : GraphDelta) (base : MemHeaderStore) : List (Hash × Hash) :=
  let updated := indexBy HeaderNode.hash delta.updatedHeaderNodes
  let inserted := delta.updatedHeaderNodes.filter fun node =>
    node.hash ∉ base.nodes.keys ∧ (node.parentHash ∈ updated.keys ∨
      node.parentHash ∈ base.nodes.keys ∧ node.parentHash ∉ delta.deletedHeaderHashes)
  inserted.map fun node => (node.parentHash, node.hash)

/-- The child edges of deleted rows, the finalized root of the store apart. -/
def removedChildren (delta : GraphDelta) (base : MemHeaderStore) : List (Hash × Hash) :=
  delta.deletedHeaderHashes.filterMap fun hash =>
    (base.nodes.lookup hash).bind fun node =>
      if node.hash ≠ base.finalizedFrontier.hash then some (node.parentHash, node.hash) else none

/-- The overlay a delta describes, before its rows are validated and its tips refreshed. -/
def project (delta : GraphDelta) (base : MemHeaderStore) : GraphOverlay where
  base := base
  baseRevision := delta.baseRevision
  finalizedFrontier := delta.finalizedFrontier.getD base.finalizedFrontier
  updatedHeaderNodesByHash := indexBy HeaderNode.hash delta.updatedHeaderNodes
  deletedHeaderHashes := delta.deletedHeaderHashes.toFinset
  retiredInsertedNodes := indexBy HeaderNode.hash delta.retiredFinalizedPathNodes
  addedHeaderChildren := grouped (delta.addedChildren base)
  removedHeaderChildren := grouped (delta.removedChildren base)
  eligibleHeaderTips := base.eligibleHeaderTips
  newConsensusInvalidBodyTombstonesByHash :=
    indexBy ConsensusInvalidBodyTombstone.hash delta.newConsensusInvalidBodyTombstones
  workCoordinatesRebased := delta.workCoordinateTransition = .rebaseToFinalizedFrontier
  headerNodeCount :=
    let updated := indexBy HeaderNode.hash delta.updatedHeaderNodes
    base.headerNodeCount + (updated.keys.filter (· ∉ base.nodes.keys)).card -
      delta.deletedHeaderHashes.toFinset.card

end GraphDelta

namespace GraphOverlay

/-- A row of the finalized path: staged, committed, or inserted and retired again. -/
def resolve (overlay : GraphOverlay) (hash : Hash) : Option HeaderNode :=
  ((overlay.updatedHeaderNodesByHash.lookup hash).or (overlay.base.nodes.lookup hash)).or
    (overlay.retiredInsertedNodes.lookup hash)

def retiredWalk (overlay : GraphOverlay) : Nat → Frontier → List HeaderNode
  | 0, _ => []
  | steps + 1, cursor =>
    if cursor.height ≤ overlay.base.finalizedFrontier.height then []
    else
      match (overlay.updatedHeaderNodesByHash.lookup cursor.hash).or
          (overlay.base.nodes.lookup cursor.hash) with
      | some node =>
        if node.height ≠ cursor.height then []
        else overlay.retiredWalk steps { height := cursor.height - 1, hash := node.parentHash }
      | none =>
        match overlay.retiredInsertedNodes.lookup cursor.hash with
        | none => []
        | some node =>
          node :: if node.height ≠ cursor.height then []
            else overlay.retiredWalk steps
              { height := cursor.height - 1, hash := node.parentHash }

def retiredFinalizedPathNodes (overlay : GraphOverlay) : List HeaderNode :=
  if overlay.finalizedFrontier = overlay.base.finalizedFrontier then []
  else
    sortRows (overlay.retiredWalk
      (overlay.finalizedFrontier.height - overlay.base.finalizedFrontier.height)
      overlay.finalizedFrontier)

def delta (overlay : GraphOverlay) : GraphDelta where
  baseRevision := overlay.baseRevision
  workCoordinateTransition :=
    if overlay.workCoordinatesRebased then .rebaseToFinalizedFrontier else .preserveCoordinates
  finalizedFrontier :=
    if overlay.finalizedFrontier ≠ overlay.base.finalizedFrontier then
      some overlay.finalizedFrontier
    else none
  updatedHeaderNodes := sortRows (overlay.updatedHeaderNodesByHash.values.filter fun node =>
    node.hash ∉ overlay.deletedHeaderHashes ∧
      overlay.base.nodes.lookup node.hash ≠ some node)
  deletedHeaderHashes := ascending overlay.deletedHeaderHashes
  retiredFinalizedPathNodes := overlay.retiredFinalizedPathNodes
  newConsensusInvalidBodyTombstones := overlay.newConsensusInvalidBodyTombstonesByHash.values

def descendantWalk (overlay : GraphOverlay) : Nat → Frontier → Except GraphError Frontier
  | 0, cursor => .ok cursor
  | steps + 1, cursor =>
    if cursor.height ≤ overlay.base.finalizedFrontier.height then .ok cursor
    else
      match overlay.resolve cursor.hash with
      | none => .error (.unknownHeaderNode cursor.hash)
      | some node =>
        if node.height ≠ cursor.height then .error (.unknownHeaderNode cursor.hash)
        else
          overlay.descendantWalk steps { height := cursor.height - 1, hash := node.parentHash }

def validateFinalizedDescendant (overlay : GraphOverlay) : Option GraphError :=
  if overlay.finalizedFrontier = overlay.base.finalizedFrontier then none
  else
    match overlay.descendantWalk
        (overlay.finalizedFrontier.height - overlay.base.finalizedFrontier.height)
        overlay.finalizedFrontier with
    | .error error => some error
    | .ok last =>
      if last ≠ overlay.base.finalizedFrontier then
        some (.finalizedFrontierNotDescendant overlay.base.finalizedFrontier.hash
          overlay.finalizedFrontier.hash)
      else none

/-- A replacement keeps what a header fixes, a permanent verdict, and its work coordinate unless
the whole graph is rebased. -/
def replacementError (overlay : GraphOverlay) (node : HeaderNode) : Option GraphError :=
  match overlay.base.nodes.lookup node.hash with
  | none => none
  | some old =>
    if old.header ≠ node.header ∨ old.hash ≠ node.hash ∨ old.parentHash ≠ node.parentHash ∨
        old.height ≠ node.height ∨ old.blockWork ≠ node.blockWork ∨
        old.bodyValidationState.isConsensusInvalid ∧
          old.bodyValidationState ≠ node.bodyValidationState ∨
        !overlay.workCoordinatesRebased ∧ old.workCoordinate ≠ node.workCoordinate then
      some (.invalidHeaderNode node.hash .immutableFields)
    else none

def parentError (overlay : GraphOverlay) (node : HeaderNode) : Option GraphError :=
  if node.hash = overlay.finalizedFrontier.hash then
    if node.eligibility.inheritedFrom.isSome then
      some (.invalidHeaderNode node.hash .derivedHeaderState)
    else none
  else
    match overlay.headerNode node.parentHash with
    | none => some (.unknownParent node.hash node.parentHash)
    | some parent =>
      if Height.next parent.height ≠ some node.height then
        some (.invalidHeaderNode node.hash .parentHeight)
      else
        match parent.workCoordinate.checkedAdd node.blockWork with
        | .error error => some (.work error)
        | .ok coordinate =>
          if coordinate ≠ node.workCoordinate then
            some (.invalidHeaderNode node.hash .cumulativeWork)
          else none

def updatedNodeError (overlay : GraphOverlay) (node : HeaderNode) : Option GraphError :=
  if node.header.previousBlockHash ≠ node.parentHash then
    some (.invalidHeaderNode node.hash .canonicalParentHash)
  else if node.header.difficultyThreshold.toWork ≠ some node.blockWork then
    some (.invalidHeaderNode node.hash .canonicalBlockWork)
  else (overlay.replacementError node).or (overlay.parentError node)

def rebasedNodeError (overlay : GraphOverlay) (anchor : WorkCoordinate) (node : HeaderNode) :
    Option GraphError :=
  if node.workCoordinate.originHash ≠ overlay.base.finalizedFrontier.hash then
    some (.invalidHeaderNode node.hash .workRebaseOrigin)
  else
    match overlay.base.nodes.lookup node.hash with
    | none => none
    | some old =>
      match rebasedCoordinate overlay.base.finalizedFrontier.hash anchor old with
      | .error error => some (.work error)
      | .ok expected =>
        if node.workCoordinate ≠ expected then
          some (.invalidHeaderNode node.hash .workRebaseCoordinate)
        else none

def validateUpdatedNodes (overlay : GraphOverlay) : Option GraphError :=
  match overlay.base.nodes.lookup overlay.base.finalizedFrontier.hash with
  -- the source expects the store to retain its finalized frontier
  | none => some (.unknownHeaderNode overlay.base.finalizedFrontier.hash)
  | some anchor =>
    (overlay.updatedHeaderNodesByHash.values.findSome? overlay.updatedNodeError).or
      (if overlay.workCoordinatesRebased then
        overlay.headerNodes.findSome? (overlay.rebasedNodeError anchor.workCoordinate)
      else none)

def validateDeletedNodes (overlay : GraphOverlay) : Option GraphError :=
  (ascending overlay.deletedHeaderHashes).findSome? fun hash =>
    (ascending (overlay.base.children.members hash)).findSome? fun child =>
      if (overlay.headerNode child).isSome ∧ child ≠ overlay.finalizedFrontier.hash then
        some (.unknownParent child hash)
      else none

def newTombstoneError (overlay : GraphOverlay) (row : ConsensusInvalidBodyTombstone) :
    Option GraphError :=
  if (overlay.base.consensusInvalidBodyTombstones.lookup row.hash).any (· ≠ row) then
    some (.permanentBodyInvalidity row.hash)
  else if (overlay.headerNode row.hash).any (·.bodyValidationState ≠ row.bodyState) then
    some (.invalidHeaderNode row.hash .derivedHeaderState)
  else none

/-- A changed row carries the verdict of its tombstone, and has a tombstone for its verdict. -/
def verdictError (overlay : GraphOverlay) (node : HeaderNode) : Option GraphError :=
  match overlay.tombstone node.hash with
  | some row =>
    if node.bodyValidationState = row.bodyState then none
    else some (.permanentBodyInvalidity node.hash)
  | none =>
    if node.bodyValidationState.isConsensusInvalid then
      some (.permanentBodyInvalidity node.hash)
    else none

def validateTombstones (overlay : GraphOverlay) : Option GraphError :=
  (overlay.newConsensusInvalidBodyTombstonesByHash.values.findSome? overlay.newTombstoneError).or
    (overlay.updatedHeaderNodesByHash.values.findSome? overlay.verdictError)

def inheritedError (overlay : GraphOverlay) (node : HeaderNode) : Option GraphError :=
  (if node.hash ≠ overlay.finalizedFrontier.hash then
    match overlay.headerNode node.parentHash with
    | none => some (.unknownParent node.hash node.parentHash)
    | some parent =>
      if node.eligibility.inheritedFrom ≠ parent.inheritedByChildren parent.hash then
        some (.invalidHeaderNode node.hash .derivedHeaderState)
      else none
  else none).or
  ((overlay.headerChildren node.hash).findSome? fun child =>
    if (overlay.headerNode child).any
        (·.eligibility.inheritedFrom ≠ node.inheritedByChildren node.hash) then
      some (.invalidHeaderNode child .derivedHeaderState)
    else none)

def validateUpdatedEligibility (overlay : GraphOverlay) : Option GraphError :=
  overlay.updatedHeaderNodesByHash.values.findSome? overlay.inheritedError

def validateDeltaNodes (overlay : GraphOverlay) : Option GraphError :=
  match overlay.headerNode overlay.finalizedFrontier.hash with
  | none => some (.unknownHeaderNode overlay.finalizedFrontier.hash)
  | some root =>
    if root.height ≠ overlay.finalizedFrontier.height then
      some (.invalidHeaderNode overlay.finalizedFrontier.hash .finalizedFrontierHeight)
    else if !root.isEligible then
      some (.ineligibleFinalizedFrontier overlay.finalizedFrontier.hash)
    else
      overlay.validateFinalizedDescendant.or (overlay.validateUpdatedNodes.or
        (overlay.validateDeletedNodes.or (overlay.validateTombstones.or
          overlay.validateUpdatedEligibility)))

/-- The changed rows, the deleted rows, their parents and the finalized root. -/
def deltaBoundary (overlay : GraphOverlay) : Finset Hash :=
  (overlay.updatedHeaderNodesByHash.values.map HeaderNode.hash).toFinset ∪
    (overlay.updatedHeaderNodesByHash.values.map HeaderNode.parentHash).toFinset ∪
    overlay.deletedHeaderHashes ∪
    ((ascending overlay.deletedHeaderHashes).filterMap fun hash =>
      (overlay.base.nodes.lookup hash).map HeaderNode.parentHash).toFinset ∪
    {overlay.finalizedFrontier.hash}

def refreshDeltaTips (overlay : GraphOverlay) : GraphOverlay :=
  overlay.refreshTips (ascending overlay.deltaBoundary)

def fromDelta (base : MemHeaderStore) (delta : GraphDelta) : Except GraphError GraphOverlay :=
  if delta.baseRevision ≠ base.graphRevision then
    .error (.staleDelta base.graphRevision delta.baseRevision)
  else
    match delta.inputError base with
    | some error => .error error
    | none =>
      match (delta.project base).validateDeltaNodes with
      | some error => .error error
      | none => .ok (delta.project base).refreshDeltaTips

end GraphOverlay

namespace MemHeaderStore

def writeRow (store : MemHeaderStore) (node : HeaderNode) : MemHeaderStore :=
  { store with
    heights :=
      if node.hash ∈ store.nodes.keys then store.heights
      else store.heights.addMember node.height node.hash
    nodes := store.nodes.insert node.hash node }

/-- The deletions, then the writes; the tips of both are replaced by `merge`. -/
def mergeRows (store : MemHeaderStore) (application : GraphOverlay) : MemHeaderStore :=
  application.updatedHeaderNodesByHash.values.foldl writeRow
    ((ascending application.deletedHeaderHashes).foldl dropNode store)

/-- The store with a validated overlay merged in, before its revision moves. -/
def merge (store : MemHeaderStore) (application : GraphOverlay) : MemHeaderStore :=
  { store.mergeRows application with
    children := extendAll application.addedHeaderChildren
      (removeAll application.removedHeaderChildren (store.mergeRows application).children)
    consensusInvalidBodyTombstones :=
      (application.newConsensusInvalidBodyTombstonesByHash ∪
        (store.mergeRows application).consensusInvalidBodyTombstones).retain
          fun _ tombstone => application.finalizedFrontier.height < tombstone.height
    finalizedFrontier := application.finalizedFrontier
    eligibleHeaderTips := application.eligibleHeaderTips }

def applyDelta (store : MemHeaderStore) (delta : GraphDelta) : StoreOutcome Unit :=
  match GraphOverlay.fromDelta store delta with
  | .error error => (.error error, store)
  | .ok application =>
    if delta.isEmpty then (.ok (), store)
    else if store.graphRevision + 1 < revisionBound then
      (.ok (), { store.merge application with graphRevision := store.graphRevision + 1 })
    else (.error .revisionExhausted, store)

end MemHeaderStore

end Zakura.HeaderChain
