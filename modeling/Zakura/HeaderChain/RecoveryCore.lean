import Zakura.HeaderChain.StoreCore
import Zakura.Lib.RowIndex

/-!
Reconstruction of a store from durable rows: each row is checked against its
header, its parent and its tombstone, then the derived indexes are built.
-/

namespace Zakura.HeaderChain

open FiniteMap

structure HeaderGraphReconstruction where
  finalizedFrontier : Frontier
  headerNodes : List HeaderNode
  consensusInvalidBodyTombstones : List ConsensusInvalidBodyTombstone

namespace HeaderGraphReconstruction

def nodeMap (durable : HeaderGraphReconstruction) : FiniteMap Hash HeaderNode :=
  indexBy HeaderNode.hash durable.headerNodes

def tombstoneMap (durable : HeaderGraphReconstruction) :
    FiniteMap Hash ConsensusInvalidBodyTombstone :=
  indexBy ConsensusInvalidBodyTombstone.hash durable.consensusInvalidBodyTombstones

/-- The first repeated tombstone: a contradiction, or a plain duplicate. -/
def tombstoneError (seen : FiniteMap Hash ConsensusInvalidBodyTombstone) :
    List ConsensusInvalidBodyTombstone → Option GraphError
  | [] => none
  | row :: rest =>
    match seen.lookup row.hash with
    | some existing =>
      if existing ≠ row then some (.permanentBodyInvalidity row.hash)
      else some (.duplicateHeaderNode row.hash)
    | none => tombstoneError (seen.insert row.hash row) rest

def parentError (durable : HeaderGraphReconstruction) (node : HeaderNode) : Option GraphError :=
  if node.hash = durable.finalizedFrontier.hash then none
  else
    match durable.nodeMap.lookup node.parentHash with
    | none => some (.unknownParent node.hash node.parentHash)
    | some parent =>
      if Height.next parent.height ≠ some node.height then
        some (.invalidHeaderNode node.hash .parentHeight)
      else
        match parent.workCoordinate.checkedAdd node.blockWork with
        | .error error => some (.work error)
        | .ok coordinate =>
          if coordinate ≠ node.workCoordinate then
            some (.invalidHeaderNode node.hash .cumulativeWork)
          else none

/-- A durable verdict needs its tombstone; a tombstone alone is applied below. -/
def verdictError (durable : HeaderGraphReconstruction) (node : HeaderNode) : Option GraphError :=
  if node.bodyValidationState.isConsensusInvalid ∧
      ¬(durable.tombstoneMap.lookup node.hash).any (·.bodyState = node.bodyValidationState) then
    some (.permanentBodyInvalidity node.hash)
  else none

def rowError [HeaderHasher] (durable : HeaderGraphReconstruction) (anchor : WorkCoordinate)
    (node : HeaderNode) : Option GraphError :=
  if node.header.hash ≠ node.hash then some (.invalidHeaderNode node.hash .canonicalHeaderHash)
  else if node.header.previousBlockHash ≠ node.parentHash then
    some (.invalidHeaderNode node.hash .canonicalParentHash)
  else if node.header.difficultyThreshold.toWork ≠ some node.blockWork then
    some (.invalidHeaderNode node.hash .canonicalBlockWork)
  else if node.workCoordinate.originHash ≠ anchor.originHash then
    some (.invalidHeaderNode node.hash .workOrigin)
  else (durable.parentError node).or (durable.verdictError node)

def inputError [HeaderHasher] (durable : HeaderGraphReconstruction) : Option GraphError :=
  (((firstDuplicate (durable.headerNodes.map HeaderNode.hash)).map
    GraphError.duplicateHeaderNode).or
  (tombstoneError ∅ durable.consensusInvalidBodyTombstones)).or
  (match durable.nodeMap.lookup durable.finalizedFrontier.hash with
  | none => some (.unknownHeaderNode durable.finalizedFrontier.hash)
  | some root =>
    if root.height ≠ durable.finalizedFrontier.height then
      some (.invalidHeaderNode durable.finalizedFrontier.hash .finalizedFrontierHeight)
    else durable.nodeMap.values.findSome? (durable.rowError root.workCoordinate))

def verdictRows (durable : HeaderGraphReconstruction) : FiniteMap Hash HeaderNode :=
  durable.nodeMap.mapValues fun hash node =>
    match durable.tombstoneMap.lookup hash with
    | none => node
    | some row => node.withBody row.bodyState

/-- A parent is eligible by its own state and the inheritance computed for it so far. -/
def parentEligible (inherited : FiniteMap Hash (Option Hash)) (parent : HeaderNode) : Bool :=
  parent.validation = .valid && parent.eligibility.directReasons = ∅ &&
    inherited.lookup parent.hash = some none && !parent.bodyValidationState.isConsensusInvalid

def inheritStep (rows : FiniteMap Hash HeaderNode) (finalized : Frontier)
    (inherited : FiniteMap Hash (Option Hash)) (node : HeaderNode) :
    FiniteMap Hash (Option Hash) :=
  if ({ height := node.height, hash := node.hash } : Frontier) = finalized then
    inherited.insert node.hash none
  else
    match rows.lookup node.parentHash with
    -- the source indexes the map here; every parent was checked above
    | none => inherited
    | some parent =>
      inherited.insert node.hash
        (if parentEligible inherited parent then none else some parent.hash)

def inheritance (durable : HeaderGraphReconstruction) : FiniteMap Hash (Option Hash) :=
  (sortRows durable.verdictRows.values).foldl
    (inheritStep durable.verdictRows durable.finalizedFrontier) ∅

def finalRows (durable : HeaderGraphReconstruction) : FiniteMap Hash HeaderNode :=
  durable.verdictRows.mapValues fun hash node =>
    match durable.inheritance.lookup hash with
    | none => node
    | some inherited => node.withInheritedFrom inherited

def assembled (durable : HeaderGraphReconstruction) : MemHeaderStore where
  graphRevision := 0
  finalizedFrontier := durable.finalizedFrontier
  preferredHeaderTip := none
  nodes := durable.finalRows
  children := grouped ((durable.finalRows.values.filter
    (·.hash ≠ durable.finalizedFrontier.hash)).map fun node => (node.parentHash, node.hash))
  heights := grouped (durable.finalRows.values.map fun node => (node.height, node.hash))
  eligibleHeaderTips := ∅
  consensusInvalidBodyTombstones := durable.tombstoneMap

end HeaderGraphReconstruction

namespace MemHeaderStore

def rebuildEligibleHeaderTips (store : MemHeaderStore) : MemHeaderStore :=
  { store with
    eligibleHeaderTips := ((store.nodes.values.filter fun node =>
      node.isEligible && !store.view.hasEligibleHeaderChild node.hash).map
        HeaderNode.hash).toFinset }

def reconstruct [HeaderHasher] (durable : HeaderGraphReconstruction) :
    Except GraphError MemHeaderStore :=
  match durable.inputError with
  | some error => .error error
  | none =>
    if (durable.finalRows.lookup durable.finalizedFrontier.hash).any HeaderNode.isEligible then
      .ok durable.assembled.rebuildEligibleHeaderTips
    else .error (.ineligibleFinalizedFrontier durable.finalizedFrontier.hash)

end MemHeaderStore

end Zakura.HeaderChain
