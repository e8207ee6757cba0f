import Zakura.HeaderChain.StoreCore

/-!
Header work prepared before finality advanced. An insertion is rewritten onto the
finalized frontier of the current snapshot, found already applied, or refused.
A refusal drops the event, so the rewritten event is returned only on success.
-/

namespace Zakura.HeaderChain

structure HeaderWorkOwner where
  authority : HeaderWorkAuthority
  sessionId : Nat
  requestId : Nat
deriving DecidableEq, Repr

inductive HeaderSyncWorkOwner
  | header (owner : HeaderWorkOwner)
  | bodyRepair (owner : BodyWorkOwner)
deriving DecidableEq, Repr

def HeaderSyncWorkOwner.headerOwner : HeaderSyncWorkOwner → Option HeaderWorkOwner
  | .header owner => some owner
  | .bodyRepair _ => none

def HeaderSyncWorkOwner.rebaseHeader (authority : HeaderWorkAuthority) :
    HeaderSyncWorkOwner → Option HeaderSyncWorkOwner
  | .header owner => some (.header { owner with authority := authority })
  | .bodyRepair _ => none

structure PreparedHeader where
  header : Header
  hash : Hash
  height : Nat
  blockWork : Nat
  validation : HeaderValidationState
deriving DecidableEq, Repr

def PreparedHeader.frontier (header : PreparedHeader) : Frontier where
  height := header.height
  hash := header.hash

structure ContextFreePreparationReceipt where
  parent : Frontier
  trustAnchorDigest : BitVec 256
deriving DecidableEq, Repr

structure PreparedHeaderBatch where
  headers : List PreparedHeader
  receipt : ContextFreePreparationReceipt
  evidence : EvidenceId
deriving DecidableEq, Repr

/-- The SHA-256 of the tagged parent, trust anchor digest and header path. -/
class BatchEvidenceHasher where
  hashBatch : Frontier → BitVec 256 → List Frontier → EvidenceId

inductive TransitionTypeError
  | invalidPreparedRebase
deriving DecidableEq, Repr

namespace PreparedHeaderBatch

def contextFreeEvidence [BatchEvidenceHasher] (parent : Frontier) (trustAnchorDigest : BitVec 256)
    (headers : List PreparedHeader) : EvidenceId :=
  BatchEvidenceHasher.hashBatch parent trustAnchorDigest (headers.map PreparedHeader.frontier)

def rebaseAfter [BatchEvidenceHasher] (batch : PreparedHeaderBatch) (parent : Frontier) :
    Except TransitionTypeError (Nat × PreparedHeaderBatch) :=
  if batch.receipt.parent = parent then .ok (0, batch)
  else
    match batch.headers.findIdx? fun header => header.frontier = parent with
    | none => .error .invalidPreparedRebase
    | some index =>
      let headers := batch.headers.drop (index + 1)
      .ok (index + 1,
        { headers := headers
          receipt := { batch.receipt with parent := parent }
          evidence := contextFreeEvidence parent batch.receipt.trustAnchorDigest headers })

def clearAlreadyApplied (batch : PreparedHeaderBatch) : PreparedHeaderBatch :=
  { batch with headers := [] }

end PreparedHeaderBatch

inductive TargetCompletion
  | targetComplete (commonAncestor : Frontier)
  | targetPrefix (commonAncestor : Frontier)
  | selectedAuxiliaryRepair (commonAncestor selectedTarget : Frontier) (episode : BitVec 256)
deriving DecidableEq, Repr

def TargetCompletion.isRepair : TargetCompletion → Bool
  | .selectedAuxiliaryRepair _ _ _ => true
  | .targetComplete _ | .targetPrefix _ => false

def TargetCompletion.rebaseCommonAncestor (commonAncestor : Frontier) :
    TargetCompletion → Except TransitionTypeError TargetCompletion
  | .targetComplete _ => .ok (.targetComplete commonAncestor)
  | .targetPrefix _ => .ok (.targetPrefix commonAncestor)
  | .selectedAuxiliaryRepair _ _ _ => .error .invalidPreparedRebase

/-- One auxiliary row; its payload is carried along unread. -/
structure AuxDelivery where
  deliveryId : EvidenceId
  headerHash : Hash
  owner : HeaderSyncWorkOwner
deriving DecidableEq, Repr

structure InsertHeaders where
  owner : HeaderSyncWorkOwner
  parentHash : Hash
  targetTipHash : Hash
  completion : TargetCompletion
  batch : PreparedHeaderBatch
  aux : List AuxDelivery
deriving DecidableEq, Repr

inductive TransitionEvent
  | insertHeaders (insert : InsertHeaders)
  | other
deriving DecidableEq, Repr

structure FinalityRecord where
  previous : Frontier
  current : Frontier
  epoch : Nat
deriving DecidableEq, Repr

structure TransitionInput where
  finalityRebaseHistory : Option (List FinalityRecord)

structure EngineSnapshot where
  stateVersion : Nat
  headerGeneration : Nat
  finalized : Frontier
deriving DecidableEq, Repr

inductive TransitionFailure
  | stale (current : Nat)
  | graph (error : GraphError)
  | counter (name : String)
  | authority
  | stalePreparation
deriving DecidableEq, Repr

inductive HeaderInsertionRebase
  | current
  | rebased
  | alreadyApplied
deriving DecidableEq, Repr

def FinalityRecord.nextEpoch (record : FinalityRecord) : Except TransitionFailure Nat :=
  if record.epoch + 1 < 2 ^ 64 then .ok (record.epoch + 1) else .error (.counter "finality epoch")

/-- The frontier a chain of records ends at. -/
def followRecords (originalAnchor : Hash) :
    Option Frontier → Option Nat → List FinalityRecord → Except TransitionFailure (Option Frontier)
  | frontier, _, [] => .ok frontier
  | frontier, epoch, record :: rest => do
    let predecessorMatches := frontier.elim (decide (record.previous.hash = originalAnchor))
      fun expected => decide (record.previous = expected)
    if predecessorMatches = false ∨ epoch.any (fun expected => record.epoch ≠ expected) ∨
        record.current.height < record.previous.height then
      .error .stalePreparation
    else
      let next ← record.nextEpoch
      followRecords originalAnchor (some record.current) (some next) rest

def validateFinalityRebasePath (originalAnchor : Hash) (currentFinalized : Frontier)
    (path : List FinalityRecord) : Except TransitionFailure Unit :=
  if originalAnchor = currentFinalized.hash then
    if path.isEmpty then .ok () else .error .stalePreparation
  else do
    let frontier ← followRecords originalAnchor none none path
    if frontier = some currentFinalized then .ok () else .error .stalePreparation

def MemHeaderStore.parentIsCurrentDescendant (graph : MemHeaderStore) (finalized : Frontier)
    (parentHash : Hash) : Except TransitionFailure Bool :=
  match graph.nodes.lookup parentHash with
  | none => .ok false
  | some parent =>
    if finalized.height ≤ parent.height then
      match graph.headerAncestor parentHash finalized.height with
      | .error error => .error (.graph error)
      | .ok ancestor => .ok (decide (ancestor = some finalized))
    else .ok false

namespace InsertHeaders

/-- The insertion with its finalized headers removed, and the count the removal reports. -/
def moveBatch [BatchEvidenceHasher] (insert : InsertHeaders) (current : EngineSnapshot)
    (graph : MemHeaderStore) (history : List FinalityRecord) :
    Except TransitionFailure (Nat × InsertHeaders) := do
  let finalized := current.finalized
  let descendant ← graph.parentIsCurrentDescendant finalized insert.parentHash
  if descendant then return (0, insert)
  else if insert.batch.headers.any fun header => header.frontier = finalized then
    let (removed, batch) ←
      (insert.batch.rebaseAfter finalized).mapError fun _ => .stalePreparation
    let completion ←
      (insert.completion.rebaseCommonAncestor finalized).mapError fun _ => .stalePreparation
    return (removed,
      { insert with batch := batch, parentHash := finalized.hash, completion := completion })
  else
    match insert.batch.headers.getLast? with
    | none => .error .stalePreparation
    | some header =>
      let preparedTip := header.frontier
      if (history.any fun record =>
          decide (record.previous = preparedTip ∨ record.current = preparedTip)) ∧
          preparedTip.height ≤ finalized.height then
        return (insert.aux.length, { insert with batch := insert.batch.clearAlreadyApplied })
      else .error (.stale current.stateVersion)

def rebaseDeliveries (authority : HeaderWorkAuthority) :
    List AuxDelivery → Except TransitionFailure (List AuxDelivery)
  | [] => .ok []
  | delivery :: rest =>
    match delivery.owner.rebaseHeader authority with
    | none => .error .authority
    | some owner => do
      let deliveries ← rebaseDeliveries authority rest
      return { delivery with owner := owner } :: deliveries

def rebaseOwners (insert : InsertHeaders) (authority : HeaderWorkAuthority) :
    Except TransitionFailure InsertHeaders :=
  match insert.owner.rebaseHeader authority with
  | none => .error .authority
  | some owner => do
    let aux ← rebaseDeliveries authority insert.aux
    return { insert with owner := owner, aux := aux }

def retainedDeliveries (insert : InsertHeaders) : List AuxDelivery :=
  insert.aux.filter fun delivery =>
    delivery.headerHash ∈ insert.batch.headers.map PreparedHeader.hash

def settle (insert : InsertHeaders) (removed : Nat) : HeaderInsertionRebase × TransitionEvent :=
  let aux := if removed ≠ 0 then insert.retainedDeliveries else insert.aux
  (if insert.batch.headers.isEmpty then .alreadyApplied else .rebased,
    .insertHeaders { insert with aux := aux })

def rebaseOwned [BatchEvidenceHasher] (insert : InsertHeaders) (original : HeaderWorkAuthority)
    (current : EngineSnapshot) (graph : MemHeaderStore) (input : TransitionInput) :
    Except TransitionFailure (HeaderInsertionRebase × TransitionEvent) :=
  if original.branch.targetTipHash ≠ insert.targetTipHash then .error (.stale current.stateVersion)
  else if original.headerGeneration = current.headerGeneration ∧
      original.branch.anchorHash = current.finalized.hash then
    .ok (.current, .insertHeaders insert)
  else if original.branch.anchorHash = current.finalized.hash then
    .error (.stale current.stateVersion)
  else if current.headerGeneration ≤ original.headerGeneration then
    .error (.stale current.stateVersion)
  else
    match input.finalityRebaseHistory with
    | none => .error (.stale current.stateVersion)
    | some history =>
      if history.isEmpty then .error (.stale current.stateVersion)
      else do
        validateFinalityRebasePath original.branch.anchorHash current.finalized history
        let (removed, moved) ← insert.moveBatch current graph history
        let owned ← moved.rebaseOwners
          { headerGeneration := current.headerGeneration
            branch := ⟨current.finalized.hash, original.branch.targetTipHash⟩ }
        return owned.settle removed

end InsertHeaders

def rebaseHeaderInsertion [BatchEvidenceHasher] (event : TransitionEvent)
    (current : EngineSnapshot) (graph : MemHeaderStore) (input : TransitionInput) :
    Except TransitionFailure (HeaderInsertionRebase × TransitionEvent) :=
  match event with
  | .other => .ok (.current, event)
  | .insertHeaders insert =>
    if insert.completion.isRepair then .ok (.current, event)
    else
      match insert.owner.headerOwner with
      | none => .ok (.current, event)
      | some owner => insert.rebaseOwned owner.authority current graph input

end Zakura.HeaderChain
