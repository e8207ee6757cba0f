import Zakura.HeaderChain.StoreCore

/-!
Sparse graph changes staged over a committed store. Reads merge the staged rows,
deletions and child edges with the store below.
-/

namespace Zakura.HeaderChain

open FiniteMap

structure GraphOverlay where
  base : MemHeaderStore
  baseRevision : Nat
  finalizedFrontier : Frontier
  updatedHeaderNodesByHash : FiniteMap Hash HeaderNode
  deletedHeaderHashes : Finset Hash
  retiredInsertedNodes : FiniteMap Hash HeaderNode
  addedHeaderChildren : FiniteMap Hash (Finset Hash)
  removedHeaderChildren : FiniteMap Hash (Finset Hash)
  eligibleHeaderTips : Finset Hash
  newConsensusInvalidBodyTombstonesByHash : FiniteMap Hash ConsensusInvalidBodyTombstone
  workCoordinatesRebased : Bool
  headerNodeCount : Nat
deriving DecidableEq

abbrev OverlayOutcome (Value : Type) := Except GraphError Value × GraphOverlay

namespace GraphOverlay

def new (base : MemHeaderStore) : GraphOverlay where
  base := base
  baseRevision := base.graphRevision
  finalizedFrontier := base.finalizedFrontier
  updatedHeaderNodesByHash := ∅
  deletedHeaderHashes := ∅
  retiredInsertedNodes := ∅
  addedHeaderChildren := ∅
  removedHeaderChildren := ∅
  eligibleHeaderTips := base.eligibleHeaderTips
  newConsensusInvalidBodyTombstonesByHash := ∅
  workCoordinatesRebased := false
  headerNodeCount := base.headerNodeCount

def headerNode (overlay : GraphOverlay) (hash : Hash) : Option HeaderNode :=
  if hash ∈ overlay.deletedHeaderHashes then none
  else
    match overlay.updatedHeaderNodesByHash.lookup hash with
    | some node => some node
    | none => overlay.base.nodes.lookup hash

def retainedHashes (overlay : GraphOverlay) : Finset Hash :=
  (overlay.base.nodes.keys ∪ overlay.updatedHeaderNodesByHash.keys) \ overlay.deletedHeaderHashes

def headerHashesAt (overlay : GraphOverlay) (height : Nat) : Finset Hash :=
  ((overlay.base.heights.members height).filter fun hash =>
      hash ∉ overlay.deletedHeaderHashes ∧ hash ∉ overlay.updatedHeaderNodesByHash.keys) ∪
    (overlay.updatedHeaderNodesByHash.keys.filter fun hash =>
      hash ∉ overlay.deletedHeaderHashes ∧
        (overlay.updatedHeaderNodesByHash.lookup hash).any (·.height = height))

def headerHashesAtHeight (overlay : GraphOverlay) (height : Nat) : List Hash :=
  ascending (overlay.headerHashesAt height)

def headerChildrenOf (overlay : GraphOverlay) (parent : Hash) : Finset Hash :=
  if (overlay.headerNode parent).isNone then ∅
  else
    ((overlay.base.children.members parent).filter fun child =>
        child ∉ overlay.deletedHeaderHashes ∧
          child ∉ overlay.removedHeaderChildren.members parent) ∪
      ((overlay.addedHeaderChildren.members parent).filter fun child =>
        child ∉ overlay.deletedHeaderHashes)

def headerChildren (overlay : GraphOverlay) (parent : Hash) : List Hash :=
  ascending (overlay.headerChildrenOf parent)

def view (overlay : GraphOverlay) : HeaderGraphView where
  finalized := overlay.finalizedFrontier
  preferred := overlay.base.preferredHeaderTip
  find := overlay.headerNode
  childrenOf := overlay.headerChildrenOf
  hashesAt := overlay.headerHashesAt
  tips := overlay.eligibleHeaderTips

def headerAncestor (overlay : GraphOverlay) (descendant : Hash) (height : Nat) :
    Except GraphError (Option Frontier) :=
  headerAncestorIn overlay.headerNode descendant height

def headerChainScore (overlay : GraphOverlay) (hash : Hash) : Except GraphError ChainScore :=
  headerChainScoreIn overlay.headerNode overlay.finalizedFrontier hash

def selectBestHeaderChain (overlay : GraphOverlay) : Except GraphError (Frontier × ChainScore) :=
  selectBestIn overlay.headerNode overlay.finalizedFrontier overlay.base.preferredHeaderTip
    (ascending overlay.eligibleHeaderTips)

def refreshTips (overlay : GraphOverlay) (affected : List Hash) : GraphOverlay :=
  { overlay with
    eligibleHeaderTips := refreshEligibleHeaderTips overlay.view.isEligibleHeaderTip affected
      overlay.eligibleHeaderTips }

def stage (overlay : GraphOverlay) (hash : Hash) (node : HeaderNode) : GraphOverlay :=
  { overlay with
    updatedHeaderNodesByHash := overlay.updatedHeaderNodesByHash.insert hash node }

def nodeTable : NodeTable GraphOverlay where
  get := headerNode
  put := stage
  children := headerChildren

def recomputeDescendantEligibility (overlay : GraphOverlay) (root : Hash) : OverlayOutcome Unit :=
  match overlay.headerNode root with
  | none => (.error (.unknownHeaderNode root), overlay)
  | some node =>
    match recomputeLoop nodeTable true overlay.retainedHashes.card overlay
        {root, node.parentHash} (overlay.headerChildren root) with
    | (.error error, overlay) => (.error error, overlay)
    | (.ok affected, overlay) => (.ok (), overlay.refreshTips (ascending affected))

/-- `if changed { self.recompute_descendant_eligibility(hash)?; } Ok(changed)`. -/
def finishEligibility (overlay : GraphOverlay) (hash : Hash) (changed : Bool) :
    OverlayOutcome Bool :=
  if changed then
    match overlay.recomputeDescendantEligibility hash with
    | (.error error, overlay) => (.error error, overlay)
    | (.ok (), overlay) => (.ok true, overlay)
  else (.ok false, overlay)

def recordHeaderChildAddition (overlay : GraphOverlay) (parent child : Hash) : GraphOverlay :=
  if child ∈ overlay.removedHeaderChildren.members parent then
    { overlay with
      removedHeaderChildren := overlay.removedHeaderChildren.eraseMember parent child }
  else
    { overlay with addedHeaderChildren := overlay.addedHeaderChildren.addMember parent child }

def recordHeaderChildRemoval (overlay : GraphOverlay) (parent child : Hash) : GraphOverlay :=
  if child ∈ overlay.addedHeaderChildren.members parent then
    { overlay with addedHeaderChildren := overlay.addedHeaderChildren.eraseMember parent child }
  else if child ∈ overlay.base.children.members parent then
    { overlay with removedHeaderChildren := overlay.removedHeaderChildren.addMember parent child }
  else overlay

def headerNodes (overlay : GraphOverlay) : List HeaderNode :=
  (ascending overlay.retainedHashes).filterMap overlay.headerNode

def stageEach (convert : HeaderNode → HeaderNode) (overlay : GraphOverlay)
    (nodes : List HeaderNode) : GraphOverlay :=
  nodes.foldl (fun staged node => staged.stage node.hash (convert node)) overlay

def rebaseAll (overlay : GraphOverlay) (anchor : WorkCoordinate) : GraphOverlay :=
  { stageEach (rebaseNode overlay.finalizedFrontier.hash anchor) overlay overlay.headerNodes with
    workCoordinatesRebased := true }

def rebaseWorkCoordinatesToFinalizedFrontier (overlay : GraphOverlay) : OverlayOutcome Unit :=
  match overlay.headerNode overlay.finalizedFrontier.hash with
  | none => (.error (.unknownHeaderNode overlay.finalizedFrontier.hash), overlay)
  | some anchor =>
    match firstRebaseError overlay.finalizedFrontier.hash anchor.workCoordinate
        overlay.headerNodes with
    | some error => (.error (.work error), overlay)
    | none => (.ok (), overlay.rebaseAll anchor.workCoordinate)

def childCoordinate (overlay : GraphOverlay) (parent : HeaderNode) (parentHash : Hash)
    (validation : HeaderValidationState) (blockWork : Nat) : OverlayOutcome WorkCoordinate :=
  match parent.workCoordinate.checkedAdd blockWork with
  | .ok coordinate => (.ok coordinate, overlay)
  | .error error =>
    if error = .overflow ∧ validation = .valid then
      match overlay.rebaseWorkCoordinatesToFinalizedFrontier with
      | (.error error, overlay) => (.error error, overlay)
      | (.ok (), overlay) =>
        match overlay.headerNode parentHash with
        | none => (.error (.unknownHeaderNode parentHash), overlay)
        | some parent =>
          match parent.workCoordinate.checkedAdd blockWork with
          | .error error => (.error (.work error), overlay)
          | .ok coordinate => (.ok coordinate, overlay)
    else (.error (.work error), overlay)

/-- A tombstone staged in this transition, or one of the committed store. -/
def tombstone (overlay : GraphOverlay) (hash : Hash) : Option ConsensusInvalidBodyTombstone :=
  match overlay.newConsensusInvalidBodyTombstonesByHash.lookup hash with
  | some row => some row
  | none => overlay.base.consensusInvalidBodyTombstones.lookup hash

def attach (overlay : GraphOverlay) (node : HeaderNode) : GraphOverlay :=
  let staged := { overlay with
    updatedHeaderNodesByHash := overlay.updatedHeaderNodesByHash.insert node.hash node
    deletedHeaderHashes := overlay.deletedHeaderHashes.erase node.hash
    retiredInsertedNodes := overlay.retiredInsertedNodes.erase node.hash }
  let linked := staged.recordHeaderChildAddition node.parentHash node.hash
  { linked with
    headerNodeCount := linked.headerNodeCount + 1
    eligibleHeaderTips :=
      if node.isEligible then insert node.hash (linked.eligibleHeaderTips.erase node.parentHash)
      else linked.eligibleHeaderTips }

def insert [HeaderHasher] (overlay : GraphOverlay) (header : Header)
    (validation : HeaderValidationState) (directReasons : List EligibilityReason)
    (body : BodyValidationState) : OverlayOutcome InsertResult :=
  match header.difficultyThreshold.toWork with
  | none => (.error (.invalidHeaderNode header.hash .canonicalBlockWork), overlay)
  | some blockWork =>
    match overlay.headerNode header.hash with
    | some existing =>
      if existing.header = header then
        (.ok (.alreadyPresent { height := existing.height, hash := header.hash }), overlay)
      else (.error (.conflictingDuplicate header.hash), overlay)
    | none =>
      match overlay.headerNode header.previousBlockHash with
      | none => (.error (.unknownParent header.hash header.previousBlockHash), overlay)
      | some parent =>
        match Height.next parent.height with
        | none => (.error (.heightOverflow header.previousBlockHash), overlay)
        | some height =>
          match overlay.childCoordinate parent header.previousBlockHash validation
              blockWork with
          | (.error error, overlay) => (.error error, overlay)
          | (.ok workCoordinate, overlay) =>
            if maxDirectEligibilityReasons < directReasons.toFinset.card then
              (.error (.directEligibilityReasonLimit header.hash
                maxDirectEligibilityReasons), overlay)
            else
              (.ok (.inserted { height := height, hash := header.hash }),
                overlay.attach (HeaderNode.ofHeader header parent height blockWork
                  workCoordinate validation directReasons.toFinset
                  (((overlay.tombstone header.hash).map
                    ConsensusInvalidBodyTombstone.bodyState).getD body)))

def addEligibilityReason (overlay : GraphOverlay) (hash : Hash) (reason : EligibilityReason) :
    OverlayOutcome Bool :=
  match overlay.headerNode hash with
  | none => (.error (.unknownHeaderNode hash), overlay)
  | some node =>
    match node.eligibility.tryInsertDirectReason hash reason with
    | .error error => (.error error, overlay.stage hash node)
    | .ok (changed, eligibility) =>
      (overlay.stage hash (node.withEligibility eligibility)).finishEligibility hash changed

def removeOperatorInvalidation (overlay : GraphOverlay) (hash : Hash)
    (id : OperatorInvalidationId) (evidence : Option EvidenceId) : OverlayOutcome Bool :=
  match overlay.headerNode hash with
  | none => (.error (.unknownHeaderNode hash), overlay)
  | some node =>
    let before := node.eligibility.directReasons
    let reasons := node.eligibility.withoutOperatorInvalidation id evidence
    (overlay.stage hash (node.withDirectReasons reasons)).finishEligibility hash
      (reasons.card ≠ before.card)

def setBodyValidationState (overlay : GraphOverlay) (hash : Hash) (body : BodyValidationState) :
    OverlayOutcome Bool :=
  match overlay.headerNode hash with
  | none => (.error (.unknownHeaderNode hash), overlay)
  | some node =>
    let tombstone := body.tombstone hash node.height
    if (overlay.tombstone hash).isSome then
      if tombstone.isSome then (.ok false, overlay)
      else (.error (.permanentBodyInvalidity hash), overlay)
    else if node.bodyValidationState.isConsensusInvalid then
      if tombstone.isSome then (.ok false, overlay.stage hash node)
      else (.error (.permanentBodyInvalidity hash), overlay.stage hash node)
    else
      let changed : Bool := node.bodyValidationState ≠ body
      let replacement := node.withBody body
      let staged := overlay.stage hash replacement
      let recomputed :=
        if node.isEligible ≠ replacement.isEligible then
          staged.recomputeDescendantEligibility hash
        else (.ok (), staged)
      match recomputed with
      | (.error error, overlay) => (.error error, overlay)
      | (.ok (), overlay) =>
        (.ok changed, { overlay with
          newConsensusInvalidBodyTombstonesByHash :=
            recordTombstone overlay.newConsensusInvalidBodyTombstonesByHash hash node.height
              body })

def setHeaderValidationState (overlay : GraphOverlay) (hash : Hash)
    (validation : HeaderValidationState) : OverlayOutcome Bool :=
  match overlay.headerNode hash with
  | none => (.error (.unknownHeaderNode hash), overlay)
  | some node =>
    (overlay.stage hash (node.withValidation validation)).finishEligibility hash
      (node.validation ≠ validation)

def recordAuxiliaryEvidenceDelivery (overlay : GraphOverlay) (hash : Hash)
    (deliveryId : EvidenceId) : OverlayOutcome Bool :=
  match overlay.headerNode hash with
  | none => (.error (.unknownHeaderNode hash), overlay)
  | some node =>
    if deliveryId ∈ node.auxDeliveryIds then (.ok false, overlay.stage hash node)
    else (.ok true, overlay.stage hash (node.withDelivery deliveryId))

/-- A row of the store becomes a deletion; a row inserted by this transition is only retired. -/
def hideRow (overlay : GraphOverlay) (hash : Hash) (node : HeaderNode) : GraphOverlay :=
  let unstaged := { overlay with
    updatedHeaderNodesByHash := overlay.updatedHeaderNodesByHash.erase hash }
  if hash ∈ overlay.base.nodes.keys then
    { unstaged with deletedHeaderHashes := Insert.insert hash unstaged.deletedHeaderHashes }
  else
    { unstaged with retiredInsertedNodes := unstaged.retiredInsertedNodes.insert hash node }

def deleteHeaderNode (overlay : GraphOverlay) (hash : Hash) : OverlayOutcome Unit :=
  match overlay.headerNode hash with
  | none => (.error (.unknownHeaderNode hash), overlay)
  | some node =>
    let unlinked := (overlay.hideRow hash node).recordHeaderChildRemoval node.parentHash hash
    (.ok (), { unlinked with
      eligibleHeaderTips := unlinked.eligibleHeaderTips.erase hash
      headerNodeCount := unlinked.headerNodeCount - 1 }.refreshTips [node.parentHash])

def deleteHeaderNodes (overlay : GraphOverlay) : List Hash → OverlayOutcome Unit
  | [] => (.ok (), overlay)
  | hash :: rest =>
    match overlay.deleteHeaderNode hash with
    | (.error error, overlay) => (.error error, overlay)
    | (.ok (), overlay) => overlay.deleteHeaderNodes rest

/-- The walk from the new frontier down to the current one, as (ancestor, retained child) pairs. -/
def finalizedPath (overlay : GraphOverlay) (finalized : Frontier) :
    Nat → Frontier → Except GraphError (List (Hash × Hash) × Frontier)
  | 0, cursor => .ok ([], cursor)
  | steps + 1, cursor =>
    if cursor.height ≤ overlay.finalizedFrontier.height then .ok ([], cursor)
    else
      match overlay.headerNode cursor.hash with
      | none => .error (.unknownHeaderNode cursor.hash)
      | some node =>
        match Height.previous cursor.height with
        | none =>
          .error (.finalizedFrontierNotDescendant overlay.finalizedFrontier.hash
            finalized.hash)
        | some parentHeight =>
          match overlay.finalizedPath finalized steps
              { height := parentHeight, hash := node.parentHash } with
          | .error error => .error error
          | .ok (path, last) => .ok ((node.parentHash, cursor.hash) :: path, last)

def edgeCount (overlay : GraphOverlay) : Nat :=
  ∑ parent ∈ overlay.retainedHashes, (overlay.headerChildren parent).length

/-- Every finalized ancestor, with the sibling subtrees below it except the retained child's. -/
def collectDeletions (overlay : GraphOverlay) : Finset Hash → List (Hash × Hash) → Finset Hash
  | deleted, [] => deleted
  | deleted, (ancestor, retainedChild) :: rest =>
    overlay.collectDeletions
      (Worklist.collectAll overlay.headerChildren (1 + overlay.edgeCount)
        (Insert.insert ancestor deleted)
        ((overlay.headerChildren ancestor).filter (· ≠ retainedChild))) rest

def moveRoot (overlay : GraphOverlay) (finalized : Frontier) (root : HeaderNode) : GraphOverlay :=
  ({ overlay with finalizedFrontier := finalized }.stage finalized.hash
    (root.withInheritedFrom none)).refreshTips [finalized.hash]

def advanceFinalizedFrontier (overlay : GraphOverlay) (finalized : Frontier) :
    OverlayOutcome (List Hash) :=
  match overlay.headerNode finalized.hash with
  | none => (.error (.unknownHeaderNode finalized.hash), overlay)
  | some node =>
    if node.height ≠ finalized.height then
      (.error (.unknownHeaderNode finalized.hash), overlay)
    else if !node.isEligible then
      (.error (.ineligibleFinalizedFrontier finalized.hash), overlay)
    else
      match overlay.finalizedPath finalized
          (finalized.height - overlay.finalizedFrontier.height) finalized with
      | .error error => (.error error, overlay)
      | .ok (path, last) =>
        if last ≠ overlay.finalizedFrontier then
          (.error (.finalizedFrontierNotDescendant overlay.finalizedFrontier.hash
            finalized.hash), overlay)
        else
          let deleted := ascending (overlay.collectDeletions ∅ path)
          match overlay.deleteHeaderNodes deleted with
          | (.error error, overlay) => (.error error, overlay)
          | (.ok (), overlay) =>
            match overlay.headerNode finalized.hash with
            | none =>
              (.error (.unknownHeaderNode finalized.hash),
                { overlay with finalizedFrontier := finalized })
            | some root => (.ok deleted, overlay.moveRoot finalized root)

def removeHeaderLeaf (overlay : GraphOverlay) (hash : Hash) : OverlayOutcome Unit :=
  if overlay.headerChildren hash ≠ [] then (.error (.headerNodeHasChildren hash), overlay)
  else overlay.deleteHeaderNode hash

def applyEdit [HeaderHasher] (overlay : GraphOverlay) : HeaderGraphEdit → OverlayOutcome EditValue
  | .insertHeader header validation directReasons body =>
    editOutcome .insertion (overlay.insert header validation directReasons body)
  | .addEligibilityReason hash reason =>
    editOutcome .changed (overlay.addEligibilityReason hash reason)
  | .removeOperatorInvalidation hash id evidence =>
    editOutcome .changed (overlay.removeOperatorInvalidation hash id evidence)
  | .setBodyValidationState hash body =>
    editOutcome .changed (overlay.setBodyValidationState hash body)
  | .setHeaderValidationState hash validation =>
    editOutcome .changed (overlay.setHeaderValidationState hash validation)
  | .recordAuxiliaryEvidenceDelivery hash deliveryId =>
    editOutcome .changed (overlay.recordAuxiliaryEvidenceDelivery hash deliveryId)
  | .advanceFinalizedFrontier finalized =>
    editOutcome .deleted (overlay.advanceFinalizedFrontier finalized)
  | .removeHeaderLeaf hash =>
    editOutcome (fun _ => .removed) (overlay.removeHeaderLeaf hash)

end GraphOverlay

end Zakura.HeaderChain
