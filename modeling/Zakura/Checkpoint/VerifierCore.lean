import Zakura.Lib.Checked
import Zakura.Lib.Fallible
import Zakura.Lib.OrderedMap

/-!
The checkpoint verifier. Blocks wait in a queue by height until an unbroken run of
heights reaches a checkpoint; the run is then walked back from the checkpoint hash.
-/

namespace Zakura.Checkpoint

open FiniteMap

def maxBlockHeight : Nat := 2 ^ 31 - 1

def maxQueuedBlocksPerHeight : Nat := 4

inductive Fault
  | resetGenerationExhausted
  | noCheckpointAtOrBelow
  | rangeStartAfterEnd
  | noQueuedEntry
  | noInitialTipHash
  | noCheckpointHash
  | alreadyFinished
  | heightNotQueued
  | emptyHeight
  | checkpointMismatch
  | duplicateBlock
  | progressChanged
  | targetNotReduced
  | previousMismatch
  | noProgress
  | finishedEarly
  | progressMissesTarget
  | checkpointsLeft
  | removedTwice
  deriving DecidableEq, Repr

inductive ListError
  | empty
  | notGenesis
  | duplicateHeight
  | duplicateHash
  | nullHash
  | heightTooLarge
  deriving DecidableEq, Repr

/-- Checkpoint hashes by height, with one for the genesis block. -/
structure CheckpointList (Hash : Type) where
  checkpoints : FiniteMap Nat Hash
  hasGenesis : (checkpoints.lookup 0).isSome = true

namespace CheckpointList

variable {Hash : Type}

theorem isSome_lastKey (list : CheckpointList Hash) : list.checkpoints.lastKey.isSome = true := by
  rw [Option.isSome_iff_ne_none, ne_eq, lastKey_eq_none]
  intro empty
  obtain ⟨hash, found⟩ := Option.isSome_iff_exists.mp list.hasGenesis
  have listed : 0 ∈ list.checkpoints.keys := mem_keys_iff.mpr ⟨hash, found⟩
  rw [empty] at listed
  exact absurd listed (Finset.notMem_empty 0)

def contains (list : CheckpointList Hash) (height : Nat) : Bool :=
  decide (height ∈ list.checkpoints.keys)

def hash (list : CheckpointList Hash) (height : Nat) : Option Hash :=
  list.checkpoints.lookup height

def maxHeight (list : CheckpointList Hash) : Nat :=
  list.checkpoints.lastKey.get list.isSome_lastKey

def maxHeightInRange (list : CheckpointList Hash) (start finish : Bound Nat) :
    Except Fault (Option Nat) :=
  if start.inverted finish then .error .rangeStartAfterEnd
  else .ok (list.checkpoints.keysIn start finish).getLast?

def prevCheckpointIndex (list : CheckpointList Hash) (height : Nat) : Except Fault Nat :=
  match (list.checkpoints.keysIn .unbounded (.included height)).length with
  | 0 => .error .noCheckpointAtOrBelow
  | index + 1 => .ok index

theorem isSome_lookup_of_firstKey {checkpoints : FiniteMap Nat Hash}
    (first : checkpoints.firstKey = some 0) : (checkpoints.lookup 0).isSome = true := by
  obtain ⟨_, found⟩ := mem_keys_iff.mp (firstKey_eq_some.mp first).1
  rw [found]
  rfl

def fromList [DecidableEq Hash] (nullHash : Hash) (checkpoints : List (Nat × Hash)) :
    Except ListError (CheckpointList Hash) :=
  let map : FiniteMap Nat Hash :=
    checkpoints.foldl (fun map entry => map.insert entry.1 entry.2) ∅
  let hashes := map.values.toFinset
  match first : map.firstKey with
  | none => .error .empty
  | some (_ + 1) => .error .notGenesis
  | some 0 =>
    if map.keys.card ≠ checkpoints.length then .error .duplicateHeight
    else if hashes.card ≠ checkpoints.length then .error .duplicateHash
    else if nullHash ∈ hashes then .error .nullHash
    else
      let list : CheckpointList Hash := ⟨map, isSome_lookup_of_firstKey first⟩
      if maxBlockHeight < list.maxHeight then .error .heightTooLarge else .ok list

end CheckpointList

inductive Progress (HeightOrHash : Type)
  | beforeGenesis
  | initialTip (value : HeightOrHash)
  | previousCheckpoint (value : HeightOrHash)
  | finalCheckpoint
  deriving DecidableEq, Repr

namespace Progress

def cmp (first second : Progress Nat) : Ordering :=
  if first = second then .eq
  else
    match first, second with
    | .beforeGenesis, _ => .lt
    | _, .beforeGenesis => .gt
    | .finalCheckpoint, _ => .gt
    | _, .finalCheckpoint => .lt
    | .initialTip height, .initialTip other
    | .initialTip height, .previousCheckpoint other
    | .previousCheckpoint height, .initialTip other
    | .previousCheckpoint height, .previousCheckpoint other => compare height other

def height : Progress Nat → Option Nat
  | .beforeGenesis => none
  | .initialTip height => some height
  | .previousCheckpoint height => some height
  | .finalCheckpoint => none

end Progress

inductive TargetHeight
  | waitingForBlocks
  | checkpoint (height : Nat)
  | finishedVerifying
  deriving DecidableEq, Repr

def TargetHeight.partialCmp : TargetHeight → TargetHeight → Option Ordering
  | .finishedVerifying, .finishedVerifying => some .eq
  | .finishedVerifying, _ => some .gt
  | _, .finishedVerifying => some .lt
  | .checkpoint height, .checkpoint other => some (compare height other)
  | .waitingForBlocks, .checkpoint _ => none
  | .checkpoint _, .waitingForBlocks => none
  | .waitingForBlocks, .waitingForBlocks => some .eq

structure BlockRules (Block Hash Error : Type) where
  validateEncodingVersionHash : Block → Except Error Hash
  coinbaseHeight : Block → Option Nat
  previousBlockHash : Block → Hash
  isAuthenticatedCustomWaiver : Except Error Bool
  difficultyThresholdIsValid : Block → Nat → Hash → Except Error Unit
  difficultyIsValid : Block → Nat → Hash → Except Error Unit
  equihashSolutionIsValid : Block → Except Error Unit
  isZip234Active : Nat → Bool
  deferredPoolBalanceChange : Nat → Except Error (Option Int)
  merkleRootValidity : Block → Except Error Unit
  genesisPreviousBlockHash : Hash

inductive VerifyCheckpointError (Hash Error : Type)
  | finished
  | tooHigh (height maxHeight : Nat)
  | alreadyVerified (height verifiedHeight : Nat)
  | newerRequest (height : Nat) (hash : Hash)
  | coinbaseHeight (hash : Hash)
  | dropped
  | queuedLimit
  | unexpectedSideChain (expected found : Hash)
  | rule (error : Error)
  deriving DecidableEq

structure CheckpointVerifiedBlock (Block Hash : Type) where
  block : Block
  hash : Hash
  height : Nat
  deferredPoolBalanceChange : Option Int

structure QueuedBlock (Block Hash : Type) where
  block : CheckpointVerifiedBlock Block Hash
  tx : Nat

structure RequestBlock (Block Hash : Type) where
  block : CheckpointVerifiedBlock Block Hash
  rx : Nat

structure QueuedBlockResult (Hash Error : Type) where
  result : Except (VerifyCheckpointError Hash Error) Hash
  resetGeneration : Nat

structure Answer (Hash Error : Type) where
  channel : Nat
  sent : QueuedBlockResult Hash Error

structure CheckpointReset (Hash : Type) where
  generation : Nat
  tip : Option (Nat × Hash)

/-- The verifier, with the number of channels it has opened and the results it has sent. -/
structure CheckpointVerifier (Block Hash Error : Type) where
  checkpointList : CheckpointList Hash
  initialTipHash : Option Hash
  queued : FiniteMap Nat (List (QueuedBlock Block Hash))
  verifierProgress : Progress Nat
  resetReceiver : List (CheckpointReset Hash)
  resetGeneration : Nat
  channels : Nat
  answers : List (Answer Hash Error)

section

variable {Block Hash Error Value : Type}

def progressFromTip (checkpointList : CheckpointList Hash) :
    Option (Nat × Hash) → Option Hash × Progress Nat
  | some (height, hash) =>
    if checkpointList.maxHeight ≤ height then (none, .finalCheckpoint)
    else (some hash, .initialTip height)
  | none => (none, .beforeGenesis)

def expect {Value : Type} (fault : Fault) : Option Value → Except Fault Value
  | none => .error fault
  | some value => .ok value

def assert (fault : Fault) (condition : Bool) : Except Fault Unit :=
  if condition then .ok () else .error fault

theorem expect_of_some (fault : Fault) {found : Option Value} {value : Value}
    (isSome : found = some value) : expect fault found = .ok value := by
  rw [isSome]
  rfl

theorem assert_of_true (fault : Fault) {condition : Bool} (holds : condition = true) :
    assert fault condition = .ok () :=
  if_pos holds

namespace CheckpointVerifier

variable (verifier : CheckpointVerifier Block Hash Error)

def verifiedCheckpointDiagnostics : Option Nat → Except Fault Unit
  | none => .ok ()
  | some height => do
      let _ ← verifier.checkpointList.prevCheckpointIndex height
      return ()

def queuedBlockDiagnostics : Except Fault Unit := do
  let _ ← expect .noQueuedEntry verifier.queued.lastKey
  return ()

def fromCheckpointList (checkpointList : CheckpointList Hash) (initialTip : Option (Nat × Hash)) :
    Except Fault (CheckpointVerifier Block Hash Error) := do
  let (initialTipHash, verifierProgress) := progressFromTip checkpointList initialTip
  let verifier : CheckpointVerifier Block Hash Error :=
    { checkpointList, initialTipHash, queued := ∅, verifierProgress, resetReceiver := [],
      resetGeneration := 0, channels := 0, answers := [] }
  verifier.verifiedCheckpointDiagnostics verifierProgress.height
  return verifier

def resetProgress (tip : Option (Nat × Hash)) :
    Except Fault (CheckpointVerifier Block Hash Error) := do
  let (initialTipHash, verifierProgress) := progressFromTip verifier.checkpointList tip
  let next := { verifier with initialTipHash, verifierProgress }
  next.verifiedCheckpointDiagnostics verifierProgress.height
  return next

def higherTip : Option (Option (Nat × Hash)) → Option (Nat × Hash) →
    Option (Nat × Hash)
  | none, tip => tip
  | some none, tip => tip
  | some (some current), none => some current
  | some (some current), some candidate =>
    some (if current.1 ≤ candidate.1 then candidate else current)

def highestTip (generation : Nat) (resets : List (CheckpointReset Hash)) :
    Option (Option (Nat × Hash)) :=
  resets.foldl (fun highest reset =>
    if reset.generation ≠ generation then highest else some (higherTip highest reset.tip)) none

def applyPendingReset : Except Fault (CheckpointVerifier Block Hash Error) :=
  let drained := { verifier with resetReceiver := [] }
  match highestTip verifier.resetGeneration verifier.resetReceiver with
  | none => .ok drained
  | some tip => do
      let next ← drained.resetProgress tip
      let generation ← expect .resetGenerationExhausted (Checked.add next.resetGeneration 1)
      return { next with resetGeneration := generation }

def currentStartBound : Option (Bound Nat) :=
  match verifier.verifierProgress with
  | .beforeGenesis => some .unbounded
  | .initialTip height | .previousCheckpoint height => some (.excluded height)
  | .finalCheckpoint => none

def continuousEnd : List Nat → Nat → Nat
  | [], pending => pending
  | height :: rest, pending =>
    if height = pending + 1 then continuousEnd rest height else pending

/-- The highest checkpoint that the queued blocks after a height reach without a gap. -/
def targetAfter (startHeight : Nat) : Except Fault TargetHeight := do
  let pending := continuousEnd
    (verifier.queued.keysIn (.excluded startHeight) .unbounded) startHeight
  let start ← expect .alreadyFinished verifier.currentStartBound
  match ← verifier.checkpointList.maxHeightInRange start (.included pending) with
  | some target => return .checkpoint target
  | none => return .waitingForBlocks

def targetCheckpointHeight : Except Fault TargetHeight :=
  match verifier.verifierProgress with
  | .beforeGenesis =>
    if 0 ∈ verifier.queued.keys then verifier.targetAfter 0 else .ok .waitingForBlocks
  | .initialTip height | .previousCheckpoint height => verifier.targetAfter height
  | .finalCheckpoint => .ok .finishedVerifying

def previousCheckpointHash : Except Fault (Progress Hash) :=
  match verifier.verifierProgress with
  | .beforeGenesis => .ok .beforeGenesis
  | .initialTip _ => do
      let hash ← expect .noInitialTipHash verifier.initialTipHash
      return .initialTip hash
  | .previousCheckpoint height => do
      let hash ← expect .noCheckpointHash (verifier.checkpointList.hash height)
      return .previousCheckpoint hash
  | .finalCheckpoint => .ok .finalCheckpoint

def checkHeight (height : Nat) : Except (VerifyCheckpointError Hash Error) Unit :=
  if verifier.checkpointList.maxHeight < height then
    .error (.tooHigh height verifier.checkpointList.maxHeight)
  else
    match verifier.verifierProgress with
    | .beforeGenesis => .ok ()
    | .initialTip previous | .previousCheckpoint previous =>
      if height ≤ previous then .error (.alreadyVerified height previous) else .ok ()
    | .finalCheckpoint => .error .finished

def updateProgress (verifiedHeight : Nat) :
    Except Fault (CheckpointVerifier Block Hash Error) :=
  match verifier.checkHeight verifiedHeight with
  | .error _ => .ok verifier
  | .ok () =>
    if verifiedHeight = verifier.checkpointList.maxHeight then do
      let next := { verifier with verifierProgress := .finalCheckpoint }
      next.verifiedCheckpointDiagnostics (some verifiedHeight)
      return next
    else if verifier.checkpointList.contains verifiedHeight then do
      let next := { verifier with
        verifierProgress := .previousCheckpoint verifiedHeight, initialTipHash := none }
      next.verifiedCheckpointDiagnostics (some verifiedHeight)
      return next
    else .ok verifier

def answer (channel : Nat) (result : Except (VerifyCheckpointError Hash Error) Hash) :
    Answer Hash Error :=
  ⟨channel, result, verifier.resetGeneration⟩

section

variable (rules : BlockRules Block Hash Error)

def checkWork (block : Block) (height : Nat) (hash : Hash) : Except Error Unit := do
  if ← rules.isAuthenticatedCustomWaiver then
    rules.difficultyThresholdIsValid block height hash
  else
    rules.difficultyIsValid block height hash
    rules.equihashSolutionIsValid block

/-- At ZIP 234 heights the commit task works out the change, after the parent commits. -/
def deferredChange (height : Nat) : Except Error (Option Int) :=
  if rules.isZip234Active height then .ok none else rules.deferredPoolBalanceChange height

def checkContents (block : Block) (hash : Hash) (height : Nat) :
    Except Error (CheckpointVerifiedBlock Block Hash) := do
  checkWork rules block height hash
  let deferredPoolBalanceChange ← deferredChange rules height
  rules.merkleRootValidity block
  return { block, hash, height, deferredPoolBalanceChange }

def checkBlock (block : Block) :
    Except (VerifyCheckpointError Hash Error) (CheckpointVerifiedBlock Block Hash) := do
  let hash ← (rules.validateEncodingVersionHash block).mapError .rule
  match rules.coinbaseHeight block with
  | none => .error (.coinbaseHeight hash)
  | some height => do
      verifier.checkHeight height
      (checkContents rules block hash height).mapError .rule

variable [DecidableEq Hash]

def replaceOlder (newer : QueuedBlock Block Hash) :
    List (QueuedBlock Block Hash) →
      Option (QueuedBlock Block Hash × List (QueuedBlock Block Hash))
  | [] => none
  | queued :: rest =>
    if queued.block.hash = newer.block.hash then some (queued, newer :: rest)
    else (replaceOlder newer rest).map fun (older, replaced) => (older, queued :: replaced)

def enqueue (block : CheckpointVerifiedBlock Block Hash) (channel : Nat) :
    Except Fault (Except (VerifyCheckpointError Hash Error) (RequestBlock Block Hash) ×
      CheckpointVerifier Block Hash Error) :=
  let newer : QueuedBlock Block Hash := ⟨block, channel⟩
  let queuedBlocks := (verifier.queued.lookup block.height).getD []
  let entered := { verifier with queued := verifier.queued.insert block.height queuedBlocks }
  match replaceOlder newer queuedBlocks with
  | some (older, replaced) =>
    .ok (.ok ⟨block, channel⟩, { entered with
        queued := entered.queued.insert block.height replaced
        answers := entered.answers ++
          [entered.answer older.tx (.error (.newerRequest block.height block.hash))] })
  | none =>
    if maxQueuedBlocksPerHeight ≤ queuedBlocks.length then .ok (.error .queuedLimit, entered)
    else do
      let next := { entered with
        queued := entered.queued.insert block.height (queuedBlocks ++ [newer]) }
      next.queuedBlockDiagnostics
      return (.ok ⟨block, channel⟩, next)

def queueBlock (block : Block) :
    Except Fault (Except (VerifyCheckpointError Hash Error) (RequestBlock Block Hash) ×
      CheckpointVerifier Block Hash Error) :=
  let opened := { verifier with channels := verifier.channels + 1 }
  match opened.checkBlock rules block with
  | .error error => .ok (.error error, opened)
  | .ok checked => opened.enqueue checked verifier.channels

def selectValid (expectedHash : Hash) :
    List (QueuedBlock Block Hash) → Option (QueuedBlock Block Hash) →
      Except Fault (Option (QueuedBlock Block Hash) × List (Answer Hash Error))
  | [], valid => .ok (valid, [])
  | queued :: rest, valid =>
    if queued.block.hash = expectedHash then
      match valid with
      | none => selectValid expectedHash rest (some queued)
      | some _ => .error .duplicateBlock
    else do
      let (chosen, failed) ← selectValid expectedHash rest valid
      return (chosen, verifier.answer queued.tx
          (.error (.unexpectedSideChain expectedHash queued.block.hash)) :: failed)

def processHeight (height : Nat) (expectedHash : Hash) :
    Except Fault (Option (QueuedBlock Block Hash) × CheckpointVerifier Block Hash Error) := do
  let queuedBlocks ← expect .heightNotQueued (verifier.queued.lookup height)
  assert .emptyHeight !queuedBlocks.isEmpty
  assert .checkpointMismatch
    (decide (∀ hash ∈ verifier.checkpointList.hash height, expectedHash = hash))
  let (valid, failed) ← verifier.selectValid expectedHash queuedBlocks none
  return (valid, { verifier with
    queued := verifier.queued.erase height, answers := verifier.answers ++ failed })

/-- How a walk back from a checkpoint ends, with the blocks it kept in height order. -/
inductive RangeWalk (Block Hash Error : Type)
  | broken (kept : List (QueuedBlock Block Hash)) (verifier : CheckpointVerifier Block Hash Error)
  | complete (kept : List (QueuedBlock Block Hash)) (expectedHash : Hash)
      (verifier : CheckpointVerifier Block Hash Error)

def processHeights : List Nat → Hash → List (QueuedBlock Block Hash) →
    CheckpointVerifier Block Hash Error → Except Fault (RangeWalk Block Hash Error)
  | [], expectedHash, kept, verifier => .ok (.complete kept expectedHash verifier)
  | height :: rest, expectedHash, kept, verifier => do
      match ← verifier.processHeight height expectedHash with
      | (some queued, next) =>
        processHeights rest (rules.previousBlockHash queued.block.block) (queued :: kept) next
      | (none, next) => return .broken kept next

omit [DecidableEq Hash] in
def requeueBlock (queue : FiniteMap Nat (List (QueuedBlock Block Hash)))
    (block : QueuedBlock Block Hash) : FiniteMap Nat (List (QueuedBlock Block Hash)) :=
  queue.insert block.block.height ((queue.lookup block.block.height).getD [] ++ [block])

omit [DecidableEq Hash] in
def requeue (kept : List (QueuedBlock Block Hash)) : CheckpointVerifier Block Hash Error :=
  { verifier with queued := kept.foldl requeueBlock verifier.queued }

omit [DecidableEq Hash] in
def failRange (kept : List (QueuedBlock Block Hash)) (oldProgress : Progress Nat)
    (target : Nat) : Except Fault (CheckpointVerifier Block Hash Error) := do
  let next := verifier.requeue kept
  assert .progressChanged (next.verifierProgress == oldProgress)
  let currentTarget ← next.targetCheckpointHeight
  assert .targetNotReduced (currentTarget == .waitingForBlocks ||
    currentTarget.partialCmp (.checkpoint target) == some .lt)
  return next

omit [DecidableEq Hash] in
def accept (kept : List (QueuedBlock Block Hash)) : CheckpointVerifier Block Hash Error :=
  { verifier with
    answers := verifier.answers ++
      kept.map fun block => verifier.answer block.tx (.ok block.block.hash) }

omit [DecidableEq Hash] in
def finishRange (kept : List (QueuedBlock Block Hash)) (oldProgress : Progress Nat)
    (target : Nat) : Except Fault (CheckpointVerifier Block Hash Error) := do
  let next ← (verifier.accept kept).updateProgress target
  assert .noProgress (next.verifierProgress.cmp oldProgress == .gt)
  if next.verifierProgress = .finalCheckpoint then
    assert .finishedEarly (target == next.checkpointList.maxHeight)
  else
    assert .progressMissesTarget (next.verifierProgress == .previousCheckpoint target)
  let newTarget ← next.targetCheckpointHeight
  assert .checkpointsLeft
    (newTarget == .waitingForBlocks || newTarget == .finishedVerifying)
  return next

def processTarget (previousHash : Hash) (target : Nat) :
    Except Fault (CheckpointVerifier Block Hash Error) := do
  let expectedHash ← expect .noCheckpointHash (verifier.checkpointList.hash target)
  let start ← expect .alreadyFinished verifier.currentStartBound
  assert .rangeStartAfterEnd !(start.inverted (.included target))
  let heights := (verifier.queued.keysIn start (.included target)).reverse
  match ← processHeights rules heights expectedHash [] verifier with
  | .broken kept next => next.failRange kept verifier.verifierProgress target
  | .complete kept lastExpected next => do
      assert .previousMismatch (lastExpected == previousHash)
      next.finishRange kept verifier.verifierProgress target

def processFrom (previousHash : Hash) : Except Fault (CheckpointVerifier Block Hash Error) := do
  match ← verifier.targetCheckpointHeight with
  | .checkpoint target => verifier.processTarget rules previousHash target
  | .waitingForBlocks => return verifier
  | .finishedVerifying => .error .alreadyFinished

def processCheckpointRange : Except Fault (CheckpointVerifier Block Hash Error) := do
  match ← verifier.previousCheckpointHash with
  | .beforeGenesis => verifier.processFrom rules rules.genesisPreviousBlockHash
  | .initialTip hash | .previousCheckpoint hash => verifier.processFrom rules hash
  | .finalCheckpoint => return verifier

/-- Submit a block: the request waits for its answer, or is refused at once. -/
def call (block : Block) :
    Except Fault (Except (VerifyCheckpointError Hash Error) (RequestBlock Block Hash) ×
      CheckpointVerifier Block Hash Error) := do
  let current ← verifier.applyPendingReset
  if current.verifierProgress = .finalCheckpoint then
    match rules.merkleRootValidity block with
    | .error error => return (.error (.rule error), current)
    | .ok () => return (.error .finished, current)
  else
    match ← current.queueBlock rules block with
    | (.error error, next) => return (.error error, next)
    | (.ok request, next) => do
        let processed ← next.processCheckpointRange rules
        return (.ok request, processed)

end

def dropKeys : List Nat → CheckpointVerifier Block Hash Error →
    Except Fault (CheckpointVerifier Block Hash Error)
  | [], verifier => .ok verifier
  | key :: rest, verifier => do
      let queuedBlocks ← expect .removedTwice (verifier.queued.lookup key)
      dropKeys rest { verifier with
        queued := verifier.queued.erase key
        answers := verifier.answers ++
          queuedBlocks.map fun block => verifier.answer block.tx (.error .dropped) }

def drop : Except Fault (CheckpointVerifier Block Hash Error) :=
  dropKeys (ascending verifier.queued.keys) verifier

end CheckpointVerifier

end

end Zakura.Checkpoint
