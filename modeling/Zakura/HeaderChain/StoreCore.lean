import Zakura.HeaderChain.View
import Zakura.Lib.Worklist

/-!
The in-memory header store. Every mutation returns its result together with the
store it leaves behind, also when it fails.
-/

namespace Zakura.HeaderChain

open FiniteMap

structure MemHeaderStore where
  graphRevision : Nat
  finalizedFrontier : Frontier
  preferredHeaderTip : Option Frontier
  nodes : FiniteMap Hash HeaderNode
  children : FiniteMap Hash (Finset Hash)
  heights : FiniteMap Nat (Finset Hash)
  eligibleHeaderTips : Finset Hash
  consensusInvalidBodyTombstones : FiniteMap Hash ConsensusInvalidBodyTombstone
deriving DecidableEq

abbrev StoreOutcome (Value : Type) := Except GraphError Value × MemHeaderStore

def revisionBound : Nat := 2 ^ 64

namespace MemHeaderStore

def view (store : MemHeaderStore) : HeaderGraphView where
  finalized := store.finalizedFrontier
  preferred := store.preferredHeaderTip
  find := store.nodes.lookup
  childrenOf := store.children.members
  hashesAt := store.heights.members
  tips := store.eligibleHeaderTips

def anchorNode (finalizedFrontier : Frontier) (header : Header) (blockWork : Nat)
    (cumulativeWork : Nat) : HeaderNode where
  header := header
  hash := finalizedFrontier.hash
  parentHash := header.previousBlockHash
  height := finalizedFrontier.height
  blockWork := blockWork
  workCoordinate := { originHash := finalizedFrontier.hash, cumulative := cumulativeWork }
  validation := .valid
  eligibility := EligibilityState.default
  bodyValidationState := .unknown
  auxDeliveryIds := []

def rootedAt (finalizedFrontier : Frontier) (header : Header) (blockWork : Nat)
    (cumulativeWork : Nat) : MemHeaderStore where
  graphRevision := 0
  finalizedFrontier := finalizedFrontier
  preferredHeaderTip := none
  nodes := (∅ : FiniteMap Hash HeaderNode).insert finalizedFrontier.hash
    (anchorNode finalizedFrontier header blockWork cumulativeWork)
  children := ∅
  heights := (∅ : FiniteMap Nat (Finset Hash)).insert finalizedFrontier.height
    {finalizedFrontier.hash}
  eligibleHeaderTips := {finalizedFrontier.hash}
  consensusInvalidBodyTombstones := ∅

def new [HeaderHasher] (finalizedFrontier : Frontier) (header : Header) (blockWork : Nat)
    (cumulativeWork : Nat) : Except GraphError MemHeaderStore :=
  if header.hash ≠ finalizedFrontier.hash then
    .error (.anchorHashMismatch finalizedFrontier.hash header.hash)
  else .ok (rootedAt finalizedFrontier header blockWork cumulativeWork)

def headerNodeCount (store : MemHeaderStore) : Nat :=
  store.nodes.keys.card

def headerHashesAtHeight (store : MemHeaderStore) (height : Nat) : List Hash :=
  ascending (store.heights.members height)

def headerChildren (store : MemHeaderStore) (parent : Hash) : List Hash :=
  ascending (store.children.members parent)

def headerAncestor (store : MemHeaderStore) (descendant : Hash) (height : Nat) :
    Except GraphError (Option Frontier) :=
  headerAncestorIn store.nodes.lookup descendant height

def headerChainScore (store : MemHeaderStore) (hash : Hash) : Except GraphError ChainScore :=
  headerChainScoreIn store.nodes.lookup store.finalizedFrontier hash

def selectBestHeaderChain (store : MemHeaderStore) : Except GraphError (Frontier × ChainScore) :=
  selectBestIn store.nodes.lookup store.finalizedFrontier store.preferredHeaderTip
    (ascending store.eligibleHeaderTips)

def preferHeaderTip (store : MemHeaderStore) (tip : Option Frontier) : MemHeaderStore :=
  { store with preferredHeaderTip := tip }

def finish {Value : Type} (store : MemHeaderStore) (value : Value) : StoreOutcome Value :=
  if store.graphRevision + 1 < revisionBound then
    (.ok value, { store with graphRevision := store.graphRevision + 1 })
  else (.error .revisionExhausted, store)

def refreshTips (store : MemHeaderStore) (affected : List Hash) : MemHeaderStore :=
  { store with eligibleHeaderTips :=
      refreshEligibleHeaderTips store.view.isEligibleHeaderTip affected store.eligibleHeaderTips }

def putNode (store : MemHeaderStore) (hash : Hash) (node : HeaderNode) : MemHeaderStore :=
  { store with nodes := store.nodes.insert hash node }

def nodeTable : NodeTable MemHeaderStore where
  get := fun store => store.nodes.lookup
  put := putNode
  children := headerChildren

def recomputeDescendantEligibility (store : MemHeaderStore) (root : Hash) : StoreOutcome Unit :=
  match store.nodes.lookup root with
  | none => (.error (.unknownHeaderNode root), store)
  | some node =>
    match recomputeLoop nodeTable false store.headerNodeCount store {root, node.parentHash}
        (store.headerChildren root) with
    | (.error error, store) => (.error error, store)
    | (.ok affected, store) => (.ok (), store.refreshTips (ascending affected))

/-- `if changed { self.recompute_descendant_eligibility(hash)?; self.advance_revision()?; }`. -/
def finishEligibility (store : MemHeaderStore) (hash : Hash) (changed : Bool) : StoreOutcome Bool :=
  if changed then
    match store.recomputeDescendantEligibility hash with
    | (.error error, store) => (.error error, store)
    | (.ok (), store) => store.finish true
  else (.ok false, store)

def rebaseAll (store : MemHeaderStore) (anchor : WorkCoordinate) : MemHeaderStore :=
  { store with nodes :=
      store.nodes.mapValues fun _ => rebaseNode store.finalizedFrontier.hash anchor }

def rebaseWorkCoordinatesToFinalizedFrontier (store : MemHeaderStore) : StoreOutcome Unit :=
  match store.nodes.lookup store.finalizedFrontier.hash with
  | none => (.error (.unknownHeaderNode store.finalizedFrontier.hash), store)
  | some anchor =>
    match firstRebaseError store.finalizedFrontier.hash anchor.workCoordinate
        store.nodes.values with
    | some error => (.error (.work error), store)
    | none => (store.rebaseAll anchor.workCoordinate).finish ()

/-- The child coordinate of `insert`. An overflow rebases the whole store once, for valid headers. -/
def childCoordinate (store : MemHeaderStore) (parent : HeaderNode) (parentHash : Hash)
    (validation : HeaderValidationState) (blockWork : Nat) : StoreOutcome WorkCoordinate :=
  match parent.workCoordinate.checkedAdd blockWork with
  | .ok coordinate => (.ok coordinate, store)
  | .error error =>
    if error = .overflow ∧ validation = .valid then
      match store.rebaseWorkCoordinatesToFinalizedFrontier with
      | (.error error, store) => (.error error, store)
      | (.ok (), store) =>
        match store.nodes.lookup parentHash with
        | none => (.error (.unknownHeaderNode parentHash), store)
        | some parent =>
          match parent.workCoordinate.checkedAdd blockWork with
          | .error error => (.error (.work error), store)
          | .ok coordinate => (.ok coordinate, store)
    else (.error (.work error), store)

def attach (store : MemHeaderStore) (node : HeaderNode) : MemHeaderStore :=
  { store with
    nodes := store.nodes.insert node.hash node
    children := store.children.addMember node.parentHash node.hash
    heights := store.heights.addMember node.height node.hash
    eligibleHeaderTips :=
      if node.isEligible then insert node.hash (store.eligibleHeaderTips.erase node.parentHash)
      else store.eligibleHeaderTips }

def insert [HeaderHasher] (store : MemHeaderStore) (header : Header)
    (validation : HeaderValidationState) (directReasons : List EligibilityReason)
    (body : BodyValidationState) : StoreOutcome InsertResult :=
  match store.nodes.lookup header.hash with
  | some existing =>
    if existing.header = header then
      (.ok (.alreadyPresent { height := existing.height, hash := header.hash }), store)
    else (.error (.conflictingDuplicate header.hash), store)
  | none =>
    match header.difficultyThreshold.toWork with
    | none => (.error (.invalidHeaderNode header.hash .canonicalBlockWork), store)
    | some blockWork =>
      match store.nodes.lookup header.previousBlockHash with
      | none => (.error (.unknownParent header.hash header.previousBlockHash), store)
      | some parent =>
        match Height.next parent.height with
        | none => (.error (.heightOverflow header.previousBlockHash), store)
        | some height =>
          match store.childCoordinate parent header.previousBlockHash validation
              blockWork with
          | (.error error, store) => (.error error, store)
          | (.ok workCoordinate, store) =>
            if maxDirectEligibilityReasons < directReasons.toFinset.card then
              (.error (.directEligibilityReasonLimit header.hash
                maxDirectEligibilityReasons), store)
            else
              (store.attach (HeaderNode.ofHeader header parent height blockWork
                workCoordinate validation directReasons.toFinset
                (((store.consensusInvalidBodyTombstones.lookup header.hash).map
                  ConsensusInvalidBodyTombstone.bodyState).getD body))).finish
                (.inserted { height := height, hash := header.hash })

def addEligibilityReason (store : MemHeaderStore) (hash : Hash) (reason : EligibilityReason) :
    StoreOutcome Bool :=
  match store.nodes.lookup hash with
  | none => (.error (.unknownHeaderNode hash), store)
  | some node =>
    match node.eligibility.tryInsertDirectReason hash reason with
    | .error error => (.error error, store)
    | .ok (changed, eligibility) =>
      (store.putNode hash (node.withEligibility eligibility)).finishEligibility hash changed

def removeOperatorInvalidation (store : MemHeaderStore) (hash : Hash)
    (id : OperatorInvalidationId) (evidence : Option EvidenceId) : StoreOutcome Bool :=
  match store.nodes.lookup hash with
  | none => (.error (.unknownHeaderNode hash), store)
  | some node =>
    let before := node.eligibility.directReasons
    let reasons := node.eligibility.withoutOperatorInvalidation id evidence
    (store.putNode hash (node.withDirectReasons reasons)).finishEligibility hash
      (reasons.card ≠ before.card)

def setBodyValidationState (store : MemHeaderStore) (hash : Hash) (body : BodyValidationState) :
    StoreOutcome Bool :=
  match store.nodes.lookup hash with
  | none => (.error (.unknownHeaderNode hash), store)
  | some node =>
    let tombstone := body.tombstone hash node.height
    if (store.consensusInvalidBodyTombstones.lookup hash).isSome ∨
        node.bodyValidationState.isConsensusInvalid then
      if tombstone.isSome then (.ok false, store)
      else (.error (.permanentBodyInvalidity hash), store)
    else
      let changed : Bool := node.bodyValidationState ≠ body
      let replacement := node.withBody body
      let staged := store.putNode hash replacement
      let recomputed :=
        if node.isEligible ≠ replacement.isEligible then
          staged.recomputeDescendantEligibility hash
        else (.ok (), staged)
      match recomputed with
      | (.error error, store) => (.error error, store)
      | (.ok (), store) =>
        let recorded := { store with
          consensusInvalidBodyTombstones :=
            recordTombstone store.consensusInvalidBodyTombstones hash node.height body }
        if changed then recorded.finish true else (.ok false, recorded)

def setHeaderValidationState (store : MemHeaderStore) (hash : Hash)
    (validation : HeaderValidationState) : StoreOutcome Bool :=
  match store.nodes.lookup hash with
  | none => (.error (.unknownHeaderNode hash), store)
  | some node =>
    (store.putNode hash (node.withValidation validation)).finishEligibility hash
      (node.validation ≠ validation)

def recordAuxiliaryEvidenceDelivery (store : MemHeaderStore) (hash : Hash)
    (deliveryId : EvidenceId) : StoreOutcome Bool :=
  match store.nodes.lookup hash with
  | none => (.error (.unknownHeaderNode hash), store)
  | some node =>
    if deliveryId ∈ node.auxDeliveryIds then (.ok false, store)
    else
      (store.putNode hash (node.withDelivery deliveryId)).finish true

def edgeCount (store : MemHeaderStore) : Nat :=
  ∑ parent ∈ store.children.keys, (store.headerChildren parent).length

/-- The hashes reached from the new finalized frontier along child edges. -/
def retainedFrom (store : MemHeaderStore) (hash : Hash) : Finset Hash :=
  Worklist.collect store.headerChildren (1 + store.edgeCount) ∅ [hash]

def dropNode (store : MemHeaderStore) (hash : Hash) : MemHeaderStore :=
  match store.nodes.lookup hash with
  | none => store
  | some node =>
    { store with
      nodes := store.nodes.erase hash
      children := store.children.erase hash
      eligibleHeaderTips := store.eligibleHeaderTips.erase hash
      heights := store.heights.removeMember node.height hash }

def clearInherited (store : MemHeaderStore) (hash : Hash) : MemHeaderStore :=
  match store.nodes.lookup hash with
  | none => store
  | some node => store.putNode hash (node.withInheritedFrom none)

/-- The deleted hashes of a finality advance, in the order the source reports them. -/
def finalityDeletions (store : MemHeaderStore) (hash : Hash) : List Hash :=
  ascending (store.nodes.keys.filter (· ∉ store.retainedFrom hash))

/-- The pruned store under its new finalized frontier, with the tombstones still above it. -/
def pruneTo (store : MemHeaderStore) (finalized : Frontier) : MemHeaderStore :=
  let pruned := (store.finalityDeletions finalized.hash).foldl dropNode store
  { pruned with
    finalizedFrontier := finalized
    consensusInvalidBodyTombstones := pruned.consensusInvalidBodyTombstones.retain
      fun _ tombstone => finalized.height < tombstone.height }

def finalizedAt (store : MemHeaderStore) (finalized : Frontier) : MemHeaderStore :=
  ((store.pruneTo finalized).clearInherited finalized.hash).refreshTips [finalized.hash]

def advanceFinalizedFrontier (store : MemHeaderStore) (finalized : Frontier) :
    StoreOutcome (List Hash) :=
  match store.nodes.lookup finalized.hash with
  | none => (.error (.unknownHeaderNode finalized.hash), store)
  | some node =>
    if node.height ≠ finalized.height then (.error (.unknownHeaderNode finalized.hash), store)
    else if !node.isEligible then
      (.error (.ineligibleFinalizedFrontier finalized.hash), store)
    else
      match store.headerAncestor finalized.hash store.finalizedFrontier.height with
      | .error error => (.error error, store)
      | .ok ancestor =>
        if ancestor ≠ some store.finalizedFrontier then
          (.error (.finalizedFrontierNotDescendant store.finalizedFrontier.hash
            finalized.hash), store)
        else (store.finalizedAt finalized).finish (store.finalityDeletions finalized.hash)

def withoutLeaf (store : MemHeaderStore) (hash : Hash) (node : HeaderNode) : MemHeaderStore :=
  { store with
    eligibleHeaderTips := store.eligibleHeaderTips.erase hash
    nodes := store.nodes.erase hash
    children := removeMember node.parentHash hash (store.children.erase hash)
    heights := store.heights.removeMember node.height hash
  }.refreshTips [node.parentHash]

def removeHeaderLeaf (store : MemHeaderStore) (hash : Hash) : StoreOutcome Unit :=
  match store.nodes.lookup hash with
  | none => (.error (.unknownHeaderNode hash), store)
  | some node =>
    if (store.children.members hash).Nonempty then (.error (.headerNodeHasChildren hash), store)
    else (store.withoutLeaf hash node).finish ()

end MemHeaderStore

/-- The edits shared by the committed store and the overlay. -/
inductive HeaderGraphEdit
  | insertHeader (header : Header) (validation : HeaderValidationState)
      (directReasons : List EligibilityReason) (body : BodyValidationState)
  | addEligibilityReason (hash : Hash) (reason : EligibilityReason)
  | removeOperatorInvalidation (hash : Hash) (id : OperatorInvalidationId)
      (evidence : Option EvidenceId)
  | setBodyValidationState (hash : Hash) (body : BodyValidationState)
  | setHeaderValidationState (hash : Hash) (validation : HeaderValidationState)
  | recordAuxiliaryEvidenceDelivery (hash : Hash) (deliveryId : EvidenceId)
  | advanceFinalizedFrontier (finalized : Frontier)
  | removeHeaderLeaf (hash : Hash)

inductive EditValue
  | insertion (result : InsertResult)
  | changed (flag : Bool)
  | deleted (hashes : List Hash)
  | removed
deriving DecidableEq, Repr

def editOutcome {Value State : Type} (wrap : Value → EditValue)
    (outcome : Except GraphError Value × State) : Except GraphError EditValue × State :=
  (outcome.1.map wrap, outcome.2)

def MemHeaderStore.applyEdit [HeaderHasher] (store : MemHeaderStore) :
    HeaderGraphEdit → StoreOutcome EditValue
  | .insertHeader header validation directReasons body =>
    editOutcome .insertion (store.insert header validation directReasons body)
  | .addEligibilityReason hash reason =>
    editOutcome .changed (store.addEligibilityReason hash reason)
  | .removeOperatorInvalidation hash id evidence =>
    editOutcome .changed (store.removeOperatorInvalidation hash id evidence)
  | .setBodyValidationState hash body =>
    editOutcome .changed (store.setBodyValidationState hash body)
  | .setHeaderValidationState hash validation =>
    editOutcome .changed (store.setHeaderValidationState hash validation)
  | .recordAuxiliaryEvidenceDelivery hash deliveryId =>
    editOutcome .changed (store.recordAuxiliaryEvidenceDelivery hash deliveryId)
  | .advanceFinalizedFrontier finalized =>
    editOutcome .deleted (store.advanceFinalizedFrontier finalized)
  | .removeHeaderLeaf hash =>
    editOutcome (fun _ => .removed) (store.removeHeaderLeaf hash)

inductive StoreMutation
  | graph (edit : HeaderGraphEdit)
  | rebaseWorkCoordinates

def MemHeaderStore.applyMutation [HeaderHasher] (store : MemHeaderStore) :
    StoreMutation → MemHeaderStore
  | .graph edit => (store.applyEdit edit).2
  | .rebaseWorkCoordinates => store.rebaseWorkCoordinatesToFinalizedFrontier.2

/-- A run keeps going after failed calls, as a caller that retries would. -/
def MemHeaderStore.run [HeaderHasher] (store : MemHeaderStore) (mutations : List StoreMutation) :
    MemHeaderStore :=
  mutations.foldl MemHeaderStore.applyMutation store

def HeaderGraphEdit.KeepsRoot (edit : HeaderGraphEdit) (finalized : Hash) : Prop :=
  match edit with
  | .removeHeaderLeaf hash => hash ≠ finalized
  | _ => True

instance (edit : HeaderGraphEdit) (finalized : Hash) : Decidable (edit.KeepsRoot finalized) :=
  match edit with
  | .removeHeaderLeaf hash => inferInstanceAs (Decidable (hash ≠ finalized))
  | .insertHeader .. | .addEligibilityReason .. | .removeOperatorInvalidation ..
  | .setBodyValidationState .. | .setHeaderValidationState ..
  | .recordAuxiliaryEvidenceDelivery .. | .advanceFinalizedFrontier .. => .isTrue trivial

def StoreMutation.KeepsRoot (mutation : StoreMutation) (finalized : Hash) : Prop :=
  match mutation with
  | .graph edit => edit.KeepsRoot finalized
  | .rebaseWorkCoordinates => True

instance (mutation : StoreMutation) (finalized : Hash) : Decidable (mutation.KeepsRoot finalized) :=
  match mutation with
  | .graph edit => inferInstanceAs (Decidable (edit.KeepsRoot finalized))
  | .rebaseWorkCoordinates => .isTrue trivial

def MemHeaderStore.RunKeepsRoot [HeaderHasher] (store : MemHeaderStore) :
    List StoreMutation → Prop
  | [] => True
  | mutation :: rest =>
    mutation.KeepsRoot store.finalizedFrontier.hash ∧
      (store.applyMutation mutation).RunKeepsRoot rest

instance runKeepsRootDecidable [HeaderHasher] : (mutations : List StoreMutation) →
    (store : MemHeaderStore) → Decidable (store.RunKeepsRoot mutations)
  | [], _ => .isTrue trivial
  | mutation :: rest, store =>
    have := runKeepsRootDecidable rest (store.applyMutation mutation)
    inferInstanceAs (Decidable (mutation.KeepsRoot store.finalizedFrontier.hash ∧ _))

end Zakura.HeaderChain
