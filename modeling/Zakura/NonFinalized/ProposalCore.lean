import Zakura.NonFinalized.ChainCore

/-!
The results of validated block proposals, kept to be reused when the solved block
commits, and the chain of a proposal finished with the solved block as its tip.
-/

namespace Zakura.NonFinalized

open HeaderChain (Hash)

structure SemanticallyVerifiedBlock where
  block : Block
  hash : Hash
  height : Nat
  newOutputs : FiniteMap OutPoint OrderedUtxo
  transactionHashes : List TransactionHash
  deferredPoolBalanceChange : Option (Amount .negativeAllowed)
  authDataRoot : Option (BitVec 256)
  receiptOrder : Option Nat
  heightAgrees : block.coinbaseHeight = some height

/-- The change of a block to the chain value pools, by its transactions, the outputs they spend
and the deferred pool. It is computed outside this source. -/
abbrev PoolChange : Type :=
  List Transaction → FiniteMap OutPoint OrderedUtxo → Option (Amount .negativeAllowed) →
    Except ValueBalanceError (ValueBalance .negativeAllowed)

namespace ContextuallyVerifiedBlock

def withBlockAndSharedSpentUtxos (poolChange : PoolChange)
    (semanticallyVerified : SemanticallyVerifiedBlock)
    (spentOutputs : FiniteMap OutPoint OrderedUtxo) :
    Except ValueBalanceError ContextuallyVerifiedBlock := do
  let change ← poolChange semanticallyVerified.block.transactions spentOutputs
    semanticallyVerified.deferredPoolBalanceChange
  return {
    block := semanticallyVerified.block
    hash := semanticallyVerified.hash
    height := semanticallyVerified.height
    newOutputs := semanticallyVerified.newOutputs
    spentOutputs := spentOutputs
    transactionHashes := semanticallyVerified.transactionHashes
    chainValuePoolChange := change
    receiptOrder := semanticallyVerified.receiptOrder
    heightAgrees := semanticallyVerified.heightAgrees }

/-- The solved block with everything but its header taken from its proposal. -/
def fromSolvedProposal (solved : SemanticallyVerifiedBlock) (proposal : ContextuallyVerifiedBlock) :
    Except ChainError ContextuallyVerifiedBlock :=
  if same : solved.height = proposal.height then
    .ok {
      block := solved.block
      hash := solved.hash
      height := proposal.height
      newOutputs := proposal.newOutputs
      spentOutputs := proposal.spentOutputs
      transactionHashes := proposal.transactionHashes
      chainValuePoolChange := proposal.chainValuePoolChange
      receiptOrder := solved.receiptOrder
      heightAgrees := same ▸ solved.heightAgrees }
  else .error
    (.panic "a solved block and its proposal share a coinbase transaction, and so a height")

end ContextuallyVerifiedBlock

def assert (condition : Prop) [Decidable condition] (message : String) : Except ChainError Unit :=
  if condition then .ok () else .error (.panic message)

namespace Chain

variable {History : Type} [CommitmentHasher] (settings : ChainSettings History)

def finishPreparedTip (solved : ContextuallyVerifiedBlock) (parentHistoryTree : History)
    (chain : Chain History) : Except ChainError (Chain History) := do
  let tipHeight ← expect chain.maxBlockHeight onlyCalledWhilePopulated
  assert (tipHeight = solved.height)
    "a prepared chain is finished at its own tip, which the solved block replaces"
  let sapling ← expect chain.sapling.treeForTip
    "only called while sapling_trees_by_height is populated"
  let orchard ← expect chain.orchard.treeForTip
    "only called while orchard_trees_by_height is populated"
  let ironwood ← expect chain.ironwood.treeForTip
    "only called while ironwood_trees_by_height is populated"
  let prepared ← expect (chain.blocks.lookup solved.height)
    "the tip height indexes the prepared tip block"
  assert (solved.block.header.previousBlockHash = prepared.block.header.previousBlockHash)
    "a solved block extends the same parent as the proposal it was mined from"
  assert (solved.block.header.difficultyThreshold = prepared.block.header.difficultyThreshold)
    "this keeps the chain's cumulative work, so the solved block must claim the proposal's difficulty threshold"
  assert (chain.index.heightByHash.lookup prepared.hash = some solved.height)
    "a chain indexes the height of every block it holds"
  let heights := chain.index.heightByHash.erase prepared.hash
  assert ((heights.lookup solved.hash).isNone) "block heights must be unique within a single chain"
  let history ← (settings.pushHistory parentHistoryTree solved.block (sapling.root .sapling)
    (orchard.root .orchard) (ironwood.root .ironwood)).mapError .historyTree
  let _ ← expect (chain.historyTreesByHeight.lookup solved.height)
    "a chain holds a history tree for every block it holds"
  let _ ← expect (chain.blockInfoByHeight.lookup solved.height)
    "a chain holds the block info of every block it holds"
  return { chain with
    blocks := (chain.blocks.erase solved.height).insert solved.height solved
    index := { chain.index with heightByHash := heights.insert solved.hash solved.height }
    historyTreesByHeight := chain.historyTreesByHeight.insert solved.height history
    blockInfoByHeight := chain.blockInfoByHeight.insert solved.height
      ⟨chain.chainValuePools, settings.serializedSize solved.block % 2 ^ 32⟩ }

end Chain

/-- Why a solved block cannot be finished from a retained proposal chain. -/
inductive NotPrepared
  | noResult
  | newChain
  | chainNotRetained
  | parentChanged
  | transactionsDiffer
  | difficultyThresholdDiffers
deriving DecidableEq, Repr

/-- The chain a validated proposal built, with a pointer to the chain it extended. Holding the
pointer keeps the chain behind it from changing. -/
structure PreparedProposal (History Pointer : Type) where
  parentChain : Pointer
  childChain : Chain History

structure ProposalEntry (History Pointer : Type) where
  parentHash : Hash
  transactionHashes : List TransactionHash
  spentUtxos : FiniteMap OutPoint OrderedUtxo
  preparedProposal : Except NotPrepared (PreparedProposal History Pointer)

/-- The retained results, oldest first, with the chains of the writer's state. -/
structure ProposalCache (History Pointer : Type) where
  entries : List (ProposalEntry History Pointer)
  liveChains : List Pointer

/-- What a validated proposal leaves to the commit of a solved block. -/
structure Reusable (History : Type) where
  spentUtxos : Option (FiniteMap OutPoint OrderedUtxo)
  chain : Except NotPrepared (Chain History)

def maxEntries : Nat := 4

def maxPreparedChains : Nat := 2

variable {History Pointer : Type} [DecidableEq Pointer]

/-- The chain to finish a solved block from, or why it cannot be reused. -/
def PreparedProposal.forSolvedBlock (solved : SemanticallyVerifiedBlock) (parentChain : Pointer)
    (prepared : PreparedProposal History Pointer) :
    Except ChainError (Except NotPrepared (Chain History)) :=
  if prepared.parentChain ≠ parentChain then .ok (.error .parentChanged)
  else do
    let proposal ← expect prepared.childChain.tipBlock
      "a proposal chain holds the block its validation pushed"
    if proposal.block.transactions ≠ solved.block.transactions then
      return .error .transactionsDiffer
    else if proposal.block.header.difficultyThreshold ≠ solved.block.header.difficultyThreshold then
      return .error .difficultyThresholdDiffers
    else return .ok prepared.childChain

namespace ProposalEntry

omit [DecidableEq Pointer]

def isFor (parentHash : Hash) (transactionHashes : List TransactionHash)
    (entry : ProposalEntry History Pointer) : Bool :=
  entry.parentHash = parentHash ∧ entry.transactionHashes = transactionHashes

def dropChain (reason : NotPrepared) (entry : ProposalEntry History Pointer) :
    ProposalEntry History Pointer :=
  match entry.preparedProposal with
  | .ok _ => { entry with preparedProposal := .error reason }
  | .error _ => entry

end ProposalEntry

namespace ProposalCache

def empty : ProposalCache History Pointer := ⟨[], []⟩

def retainsParent (cache : ProposalCache History Pointer)
    (proposal : PreparedProposal History Pointer) : Bool :=
  cache.liveChains.contains proposal.parentChain

/-- Publish the chains of the writer's state, dropping the chains whose parent is gone. -/
def updateLiveChains (chains : List Pointer) (cache : ProposalCache History Pointer) :
    ProposalCache History Pointer :=
  let published := { cache with liveChains := chains }
  { published with
    entries := published.entries.map fun entry =>
      match entry.preparedProposal with
      | .ok proposal =>
        if published.retainsParent proposal then entry else entry.dropChain .parentChanged
      | .error _ => entry }

def boundPreparedChains (entries : List (ProposalEntry History Pointer)) :
    List (ProposalEntry History Pointer) :=
  let pastTheBound := entries.length - maxPreparedChains
  (entries.take pastTheBound).map (·.dropChain .chainNotRetained) ++ entries.drop pastTheBound

def checkTip (proposal : ContextuallyVerifiedBlock) :
    Option (PreparedProposal History Pointer) → Except ChainError Unit
  | none => .ok ()
  | some prepared => do
      let tip ← expect prepared.childChain.tipHash onlyCalledWhilePopulated
      assert (tip = proposal.hash) "a retained chain's tip is the proposal whose results it holds"

/-- The entry of a validated proposal, with its chain if the writer still has its parent. -/
def entryFor (proposal : ContextuallyVerifiedBlock)
    (chain : Option (PreparedProposal History Pointer)) (cache : ProposalCache History Pointer) :
    ProposalEntry History Pointer where
  parentHash := proposal.block.header.previousBlockHash
  transactionHashes := proposal.transactionHashes
  spentUtxos := proposal.spentOutputs
  preparedProposal :=
    match chain with
    | none => .error .chainNotRetained
    | some prepared => if cache.retainsParent prepared then .ok prepared else .error .parentChanged

def remember (proposal : ContextuallyVerifiedBlock)
    (chain : Option (PreparedProposal History Pointer)) (cache : ProposalCache History Pointer) :
    Except ChainError (ProposalCache History Pointer) := do
  checkTip proposal chain
  let entry := cache.entryFor proposal chain
  let others := cache.entries.filter fun old => !old.isFor entry.parentHash entry.transactionHashes
  let room := if others.length = maxEntries then others.tail else others
  return { cache with entries := boundPreparedChains (room ++ [entry]) }

/-- Remove the entry of a proposal with the block's parent and transactions. -/
def take (block : SemanticallyVerifiedBlock) (cache : ProposalCache History Pointer) :
    Option (ProposalEntry History Pointer) × ProposalCache History Pointer :=
  let isFor (entry : ProposalEntry History Pointer) : Bool :=
    entry.isFor block.block.header.previousBlockHash block.transactionHashes
  (cache.entries.find? isFor, { cache with entries := cache.entries.eraseP isFor })

/-- The chain of an entry, if the solved block can be finished from it. A block on the finalized
tip has no parent chain. -/
def reuse (solved : SemanticallyVerifiedBlock) (parentChain : Option Pointer)
    (entry : ProposalEntry History Pointer) :
    Except ChainError (Except NotPrepared (Chain History)) :=
  match parentChain, entry.preparedProposal with
  | some pointer, .ok proposal => proposal.forSolvedBlock solved pointer
  | some _, .error reason => .ok (.error reason)
  | none, _ => .ok (.error .newChain)

def takeFor (solved : SemanticallyVerifiedBlock) (parentChain : Option Pointer)
    (cache : ProposalCache History Pointer) :
    Except ChainError (Reusable History × ProposalCache History Pointer) :=
  match cache.take solved with
  | (none, remaining) => .ok (⟨none, .error .noResult⟩, remaining)
  | (some entry, remaining) => do
      let chain ← reuse solved parentChain entry
      return (⟨some entry.spentUtxos, chain⟩, remaining)

end ProposalCache

end Zakura.NonFinalized
