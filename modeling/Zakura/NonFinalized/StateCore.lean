import Mathlib.Data.Prod.Lex
import Zakura.Lib.Ranked
import Zakura.NonFinalized.ContextCore

/-!
The non-finalized state: an ordered set of chains, the records of invalidated
blocks and the operator's preferences, with the operations that commit, finalize,
invalidate, reconsider and prefer blocks. An operation returns its result with the
state it leaves behind, so that what a refused operation changes can be seen.
-/

namespace Zakura.NonFinalized

open HeaderChain (Hash)

variable {History : Type}

def maxNonFinalizedChainForks : Nat := 10

def maxInvalidatedBlocks : Nat := 100

/-- A chain of the set with the operator's preference for its tip. -/
structure PreferredChain (History : Type) where
  chain : Chain History
  precious : Option (Hash × Nat)

/-- The order of chains: greater work wins, then the latest preference, then the earlier receipt,
then the tip hash. Missing receipt orders come before live receipts. -/
abbrev ChainOrder : Type := Nat ×ₗ Nat ×ₗ (WithBot Nat)ᵒᵈ ×ₗ WithBot Hash

namespace PreferredChain

def tipHash (chain : PreferredChain History) : Option Hash := chain.chain.tipHash

def activePrecedence (chain : PreferredChain History) : Nat :=
  match chain.precious with
  | some (hash, sequence) => if chain.tipHash = some hash then sequence else 0
  | none => 0

def order (chain : PreferredChain History) : ChainOrder :=
  toLex (chain.chain.index.partialCumulativeWork, toLex (chain.activePrecedence,
    toLex (OrderDual.toDual (chain.chain.tipBlock.bind (·.receiptOrder)), chain.tipHash)))

def containsBlockHash (hash : Hash) (chain : PreferredChain History) : Bool :=
  (chain.chain.index.heightByHash.lookup hash).isSome

end PreferredChain

namespace Chain

def rootHash (chain : Chain History) : Option Hash :=
  (chain.rootHeight.bind chain.blocks.lookup).map (·.hash)

def childBlocks (height : Nat) (chain : Chain History) : List ContextuallyVerifiedBlock :=
  ((FiniteMap.ascending chain.blocks.keys).filter (height ≤ ·)).filterMap chain.blocks.lookup

def invalidateBlock (settings : ChainSettings History) (blockHash : Hash) (chain : Chain History) :
    Except ChainError (Option (Chain History × List ContextuallyVerifiedBlock)) := do
  match chain.index.heightByHash.lookup blockHash with
  | none => return none
  | some height =>
    match ← chain.fork settings blockHash with
    | none => return none
    | some forked =>
      let newChain ← forked.popTip settings
      return some (newChain, chain.childBlocks height)

end Chain

structure NonFinalizedState (History : Type) where
  chainSet : List (PreferredChain History)
  invalidatedBlocks : List (Nat × List ContextuallyVerifiedBlock)
  preciousSequence : Nat
  preciousBlocks : FiniteMap Hash Nat

/-- Add a chain to the set, which keeps the old one of two equal chains. -/
def insertChain (chain : PreferredChain History) (chains : List (PreferredChain History)) :
    List (PreferredChain History) :=
  RankedSet.insert PreferredChain.order chain chains

def evictForks (insertedTip : Hash) :
    Nat → List (PreferredChain History) → Except ChainError (List (PreferredChain History))
  | 0, chains => .ok chains
  | excess + 1, chains =>
    if chains.any fun chain => chain.tipHash ≠ some insertedTip then
      evictForks insertedTip excess
        (chains.eraseP fun chain => chain.tipHash ≠ some insertedTip)
    else .error
      (.panic "the fork limit leaves room for both the best and inserted chains")

/-- Add a record, in the place of the record of the same height if there is one. -/
def insertRecord (height : Nat) (blocks : List ContextuallyVerifiedBlock)
    (records : List (Nat × List ContextuallyVerifiedBlock)) :
    List (Nat × List ContextuallyVerifiedBlock) :=
  if records.any fun record => record.1 = height then
    records.map fun record => if record.1 = height then (height, blocks) else record
  else records ++ [(height, blocks)]

inductive InvalidateError
  | blockNotFound (hash : Hash)
  | chain (error : ChainError)
deriving DecidableEq

inductive PreciousError
  | blockNotFound (hash : Hash)
  | chain (error : ChainError)
deriving DecidableEq

inductive ReconsiderError
  | missingInvalidatedBlock (hash : Hash)
  | invalidatedBlocksEmpty
  | parentChainNotFound (hash : Hash)
  | replayFailed (error : ChainError)
  | chain (error : ChainError)
deriving DecidableEq

namespace NonFinalizedState

def empty : NonFinalizedState History := ⟨[], [], 0, ∅⟩

section

variable (state : NonFinalizedState History)

def findChain (holds : PreferredChain History → Bool) : Option (PreferredChain History) :=
  state.chainSet.reverse.find? holds

def bestChain : Option (PreferredChain History) := state.chainSet.getLast?

def anyChainContains (hash : Hash) : Bool :=
  state.chainSet.any (·.containsBlockHash hash)

def isInvalidated (hash : Hash) : Bool :=
  state.invalidatedBlocks.any fun record => record.2.any fun block => block.hash = hash

def withTipPreference (chain : Chain History) : PreferredChain History where
  chain := chain
  precious := chain.tipHash.bind fun tip => (state.preciousBlocks.lookup tip).map fun sequence =>
    (tip, sequence)

end

def insertWith (chain : Chain History) (keep : PreferredChain History → Bool)
    (state : NonFinalizedState History) : Except ChainError (NonFinalizedState History) := do
  let insertedTip ← expect chain.tipHash onlyCalledWhilePopulated
  let chains := (insertChain (state.withTipPreference chain) state.chainSet).filter keep
  let kept ← evictForks insertedTip (chains.length - maxNonFinalizedChainForks) chains
  return { state with chainSet := kept }

def insert (chain : Chain History) (state : NonFinalizedState History) :
    Except ChainError (NonFinalizedState History) :=
  state.insertWith chain fun _ => true

/-- Forget the preferences for blocks that are in no chain and not invalidated. -/
def retainPreciousBlocks (state : NonFinalizedState History) : NonFinalizedState History :=
  { state with
    preciousBlocks := FiniteMap.retain (fun hash _ =>
      state.anyChainContains hash || state.isInvalidated hash) state.preciousBlocks }

section

variable (settings : ChainSettings History)

def insertPopped (popped : Chain History) (state : NonFinalizedState History) :
    Except ChainError (NonFinalizedState History) :=
  if popped.isEmpty then .ok state else state.insert popped

/-- Drop the side chains with another root and pop the root of the others. -/
def finalizeSideChains (rootHash : Hash) :
    List (PreferredChain History) → NonFinalizedState History →
      Except ChainError (NonFinalizedState History)
  | [], state => .ok state
  | side :: rest, state => do
      let sideRootHash ← expect side.chain.rootHash onlyCalledWhilePopulated
      if sideRootHash ≠ rootHash then finalizeSideChains rootHash rest state
      else do
        let ((sideRoot, _), popped) ← side.chain.popRoot settings
        assert (sideRoot.hash = rootHash) "assertion `left == right` failed"
        let next ← state.insertPopped popped
        finalizeSideChains rootHash rest next

/-- Finalize the root of the best chain and update the side chains to match. -/
def finalize (state : NonFinalizedState History) :
    Except ChainError
      ((ContextuallyVerifiedBlock × Treestate History) × NonFinalizedState History) := do
  let best ← expect state.bestChain "there's at least one chain"
  let ((root, treestate), popped) ← best.chain.popRoot settings
  let emptied := { state with chainSet := [] }
  let bestKept ← emptied.insertPopped popped
  let finalized ← finalizeSideChains settings root.hash state.chainSet.dropLast.reverse bestKept
  let retained := { finalized with
    invalidatedBlocks := finalized.invalidatedBlocks.filter fun record => root.height ≤ record.1 }
  return ((root, treestate), retained.retainPreciousBlocks)

end

section

variable [CommitmentHasher] (settings : ContextSettings History)
  (finalized : FinalizedState History)

def firstFork (settings : ChainSettings History) (forkTip : Hash) :
    List (PreferredChain History) → Except ChainError (Option (Chain History))
  | [] => .ok none
  | chain :: rest => do
      match ← chain.chain.fork settings forkTip with
      | some forked => return some forked
      | none => firstFork settings forkTip rest

/-- The chain with the given tip, which may be a fork of a chain of the set. -/
def parentChain (settings : ChainSettings History) (parentHash : Hash)
    (state : NonFinalizedState History) : Except ContextError (Chain History) :=
  match state.findChain fun chain => chain.tipHash = some parentHash with
  | some chain => .ok chain.chain
  | none =>
    match firstFork settings parentHash state.chainSet.reverse with
    | .error error => .error (.chain error)
    | .ok (some forked) => .ok forked
    | .ok none => .error .notReadyToBeCommitted

def pinReceiptOrder (prepared : SemanticallyVerifiedBlock) (state : NonFinalizedState History) :
    Except ContextError SemanticallyVerifiedBlock :=
  match state.findChain (·.containsBlockHash prepared.hash) with
  | none => .ok prepared
  | some chain => do
      let block ← (expect ((chain.chain.index.heightByHash.lookup prepared.hash).bind
        chain.chain.blocks.lookup) "the selected chain contains this block").mapError .chain
      return { prepared with receiptOrder := block.receiptOrder }

/-- What is checked of every block: its receipt order is pinned, invalidated blocks are refused. -/
def checkBeforeContextualUpdate (prepared : SemanticallyVerifiedBlock)
    (state : NonFinalizedState History) : Except ContextError SemanticallyVerifiedBlock := do
  let pinned ← state.pinReceiptOrder prepared
  if state.isInvalidated prepared.hash then .error (.blockPreviouslyInvalidated prepared.hash)
  else return pinned

/-- The two checks and the update that run side by side. Errors are reported in this order. -/
def validateAndUpdateParallel (newChain : Chain History) (contextual : ContextuallyVerifiedBlock)
    (authDataRoot : Option (BitVec 256))
    (sproutFinalTreestates : FiniteMap Root NoteCommitmentTree) :
    Except ContextError (Chain History) := do
  let history ← (expect newChain.historyBlockCommitmentTree
    "only called while history_trees_by_height is populated").mapError .chain
  match newChain.push settings.toChainSettings contextual with
  | .error (.panic message) => .error (.chain (.panic message))
  | pushed => do
      if settings.blockCommitmentIsValid contextual.block history authDataRoot then
        Check.blockSproutAnchorsReferToTreestates sproutFinalTreestates contextual.block
          contextual.transactionHashes contextual.height
        pushed.mapError .chain
      else .error .invalidBlockCommitment

/-- The outputs a block spends, from its proposal or by looking them up. -/
def spentUtxosOf (newChain : Chain History) (prepared : SemanticallyVerifiedBlock)
    (cachedSpends : Option (FiniteMap OutPoint OrderedUtxo)) :
    Except ContextError (FiniteMap OutPoint OrderedUtxo) :=
  match cachedSpends with
  | some spentUtxos => .ok spentUtxos
  | none => Check.transparentSpend settings prepared newChain.index finalized

def validateAndCommit (newChain : Chain History) (prepared : SemanticallyVerifiedBlock)
    (cachedSpends : Option (FiniteMap OutPoint OrderedUtxo)) (state : NonFinalizedState History) :
    Except ContextError (Chain History) := do
  let prepared ← state.checkBeforeContextualUpdate prepared
  let spentUtxos ← spentUtxosOf settings finalized newChain prepared cachedSpends
  Check.blockSaplingOrchardIronwoodAnchorsReferToFinalTreestates finalized newChain prepared
  let sproutFinalTreestates := Check.blockFetchSproutFinalTreestates finalized newChain prepared
  let contextual ← (ContextuallyVerifiedBlock.withBlockAndSharedSpentUtxos settings.poolChange
    prepared spentUtxos).mapError (.calculateBlockChainValueChange · prepared.height prepared.hash
      prepared.block.transactions.length spentUtxos.keys.card)
  validateAndUpdateParallel settings newChain contextual prepared.authDataRoot
    sproutFinalTreestates

def finishPreparedChain (preparedChain : Chain History) (solved : SemanticallyVerifiedBlock)
    (parent : Chain History) (state : NonFinalizedState History) :
    Except ContextError (Chain History) := do
  let solved ← state.checkBeforeContextualUpdate solved
  let history ← (expect parent.historyBlockCommitmentTree
    "only called while history_trees_by_height is populated").mapError .chain
  if settings.blockCommitmentIsValid solved.block history none then
    let proposal ← (expect preparedChain.tipBlock
      "a prepared chain holds the block its validation pushed").mapError .chain
    let contextual ← (ContextuallyVerifiedBlock.fromSolvedProposal solved proposal).mapError .chain
    (preparedChain.finishPreparedTip settings.toChainSettings contextual history).mapError .chain
  else .error .invalidBlockCommitment

/-- Extend the chain of its parent by a block. `reusable` is what a proposal of the block left
behind. -/
def extendChain (reusable : Reusable History) (prepared : SemanticallyVerifiedBlock)
    (parent : Chain History) (state : NonFinalizedState History) :
    Except ContextError (Chain History) :=
  match reusable.chain with
  | .ok preparedChain => state.finishPreparedChain settings preparedChain prepared parent
  | .error _ => state.validateAndCommit settings finalized parent prepared reusable.spentUtxos

def commitBlock (reusable : Reusable History) (prepared : SemanticallyVerifiedBlock)
    (state : NonFinalizedState History) : Except ContextError Unit × NonFinalizedState History :=
  let parentHash := prepared.block.header.previousBlockHash
  let modified : Except ContextError (Chain History) := do
    let parent ← state.parentChain settings.toChainSettings parentHash
    state.extendChain settings finalized reusable prepared parent
  match modified with
  | .error error => (.error error, state)
  | .ok chain =>
    match state.insertWith chain fun other => other.tipHash ≠ some parentHash with
    | .error error => (.error (.chain error), state)
    | .ok next => (.ok (), next.retainPreciousBlocks)

def commitNewChain (reusable : Reusable History) (prepared : SemanticallyVerifiedBlock)
    (state : NonFinalizedState History) : Except ContextError Unit × NonFinalizedState History :=
  let modified : Except ContextError (Chain History) := do
    let chain ← (Chain.new finalized.tip).mapError .chain
    state.validateAndCommit settings finalized chain prepared reusable.spentUtxos
  match modified with
  | .error error => (.error error, state)
  | .ok chain =>
    match state.insert chain with
    | .error error => (.error (.chain error), state)
    | .ok next => (.ok (), next.retainPreciousBlocks)

end

section

variable (settings : ChainSettings History)

/-- Record invalidated blocks under the height of the first, forgetting the oldest records. -/
def recordInvalidated (height : Nat) (blocks : List ContextuallyVerifiedBlock)
    (state : NonFinalizedState History) : NonFinalizedState History :=
  let records := insertRecord height blocks state.invalidatedBlocks
  { state with invalidatedBlocks := records.drop (records.length - maxInvalidatedBlocks) }

def invalidateBlock (blockHash : Hash) (state : NonFinalizedState History) :
    Except InvalidateError Hash × NonFinalizedState History :=
  match state.findChain (·.containsBlockHash blockHash) with
  | none => (.error (.blockNotFound blockHash), state)
  | some found =>
    let removed : Except ChainError
        (NonFinalizedState History × List ContextuallyVerifiedBlock) := do
      if found.chain.rootHash = some blockHash then
        return ({ state with
          chainSet := state.chainSet.filter fun chain => !chain.containsBlockHash blockHash },
          FiniteMap.values found.chain.blocks)
      else
        let invalidated ← found.chain.invalidateBlock settings blockHash
        let (newChain, blocks) ← expect invalidated "already checked that chain contains hash"
        let next ← state.insertWith newChain fun chain => !chain.containsBlockHash blockHash
        return (next, blocks)
    match removed with
    | .error error => (.error (.chain error), state)
    | .ok (_, []) => (.error (.chain (.panic "should not be empty")), state)
    | .ok (next, first :: rest) =>
      (.ok blockHash, (next.recordInvalidated first.height (first :: rest)).retainPreciousBlocks)

end

def preciousBlock (blockHash : Hash) (finalized : FinalizedState History)
    (state : NonFinalizedState History) :
    Except PreciousError Unit × NonFinalizedState History :=
  match state.chainSet.find? fun chain => chain.tipHash = some blockHash with
  | none =>
    if state.anyChainContains blockHash || state.isInvalidated blockHash ||
        (finalized.heightByHash.lookup blockHash).isSome then (.ok (), state)
    else (.error (.blockNotFound blockHash), state)
  | some chain =>
    match state.bestChain with
    | none =>
      (.error (.chain (.panic "the chain set contains the chain found above")), state)
    | some best =>
      if chain.chain.index.partialCumulativeWork < best.chain.index.partialCumulativeWork then
        (.ok (), state)
      else
        let sequence := min (state.preciousSequence + 1) (2 ^ 64 - 1)
        let preferred := { state with
          preciousSequence := sequence
          preciousBlocks := state.preciousBlocks.insert blockHash sequence }.retainPreciousBlocks
        (.ok (), { preferred with
          chainSet := insertChain (preferred.withTipPreference chain.chain)
            (preferred.chainSet.filter fun other => other.order ≠ chain.order) })

section

/-- Forget the record of a height, and the records below the finalized height. -/
def forgetRecord (height finalizedHeight : Nat) (state : NonFinalizedState History) :
    NonFinalizedState History :=
  { state with
    invalidatedBlocks := state.invalidatedBlocks.filter fun record =>
      record.1 ≠ height ∧ finalizedHeight ≤ record.1 }

variable [CommitmentHasher] (settings : ChainSettings History) (finalized : FinalizedState History)

def reconsideredParent (blockHash rootParentHash : Hash) (state : NonFinalizedState History) :
    Except ReconsiderError (Chain History) :=
  if rootParentHash = finalized.tipHash then (Chain.new finalized.tip).mapError .chain
  else
    match state.parentChain settings rootParentHash with
    | .error (.chain (.panic message)) => .error (.chain (.panic message))
    | .error _ => .error (.parentChainNotFound blockHash)
    | .ok parent => .ok parent

/-- Put the blocks of an invalidation record back on the chain of their parent. -/
def reconsiderBlock (blockHash : Hash) (state : NonFinalizedState History) :
    Except ReconsiderError (List Hash) × NonFinalizedState History :=
  match state.invalidatedBlocks.find? fun record =>
      (record.2.head?.map fun block => block.hash) = some blockHash with
  | none => (.error (.missingInvalidatedBlock blockHash), state)
  | some (_, []) => (.error .invalidatedBlocksEmpty, state)
  | some (height, root :: rest) =>
    let rootParentHash := root.block.header.previousBlockHash
    let modified : Except ReconsiderError (Chain History) := do
      let parent ← state.reconsideredParent settings finalized blockHash rootParentHash
      (parent.pushAll settings (root :: rest)).mapError .replayFailed
    match modified with
    | .error error => (.error error, state)
    | .ok chain =>
      match (state.forgetRecord height finalized.tip.height).insertWith chain
          fun other => other.tipHash ≠ some rootParentHash with
      | .error error => (.error (.chain error), state)
      | .ok next =>
        (.ok ((root :: rest).map fun block => block.hash), next.retainPreciousBlocks)

end

end NonFinalizedState

end Zakura.NonFinalized
