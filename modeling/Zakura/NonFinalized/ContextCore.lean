import Zakura.NonFinalized.ProposalCore

/-!
The contextual checks of a block against its parent chain and the finalized state:
transparent spends, nullifiers and anchors.
-/

namespace Zakura.NonFinalized

open HeaderChain (Hash)

variable {History : Type}

/-- What the checks read of the finalized state. Spent outputs are not kept. -/
structure FinalizedState (History : Type) where
  tip : FinalizedTip History
  tipHash : Hash
  heightByHash : FiniteMap Hash Nat
  utxos : FiniteMap OutPoint OrderedUtxo
  nullifiers : Finset (ShieldedPool × Nullifier)
  anchors : ShieldedPool → Finset Root
  sproutTreesByAnchor : FiniteMap Root NoteCommitmentTree

inductive RemainingValueError
  | negative
  | amount (error : AmountError)
  | valueBalance (error : ValueBalanceError)
deriving DecidableEq

inductive ContextError
  | blockPreviouslyInvalidated (blockHash : Hash)
  | notReadyToBeCommitted
  | orphanedBlock (candidateHeight finalizedTipHeight : Nat)
  | nonSequentialBlock (candidateHeight parentHeight : Nat)
  | earlyTransparentSpend (outpoint : OutPoint)
  | duplicateTransparentSpend (outpoint : OutPoint) (location : String)
  | missingTransparentOutput (outpoint : OutPoint) (location : String)
  | immatureTransparentCoinbaseSpend (outpoint : OutPoint)
      (spendHeight minSpendHeight createdHeight : Nat)
  | unshieldedTransparentCoinbaseSpend (outpoint : OutPoint)
  | remainingTransactionValue (error : RemainingValueError) (height txIndexInBlock : Nat)
      (transactionHash : TransactionHash)
  | unknownAnchor (pool : ShieldedPool) (anchor : Root) (height txIndexInBlock : Nat)
      (transactionHash : TransactionHash)
  | calculateBlockChainValueChange (error : ValueBalanceError) (height : Nat) (blockHash : Hash)
      (transactionCount spentUtxoCount : Nat)
  | invalidBlockCommitment
  | chain (error : ChainError)
deriving DecidableEq

/-- What contextual validation reads besides the settings of the chains: a network flag, and code
outside this source. -/
structure ContextSettings (History : Type) extends ChainSettings History where
  shouldAllowUnshieldedCoinbaseSpends : Bool
  poolChange : PoolChange
  remainingTransactionValue : Transaction → FiniteMap OutPoint OrderedUtxo →
    Except RemainingValueError Unit
  blockCommitmentIsValid : Block → History → Option (BitVec 256) → Bool

inductive CoinbaseSpendRestriction
  | checkCoinbaseMaturity (spendHeight : Nat)
  | disallowCoinbaseSpend
deriving DecidableEq, Repr

def minTransparentCoinbaseMaturity : Nat := 100

namespace Transaction

def isCoinbase (transaction : Transaction) : Bool :=
  match transaction.inputs with
  | [.coinbase _] => true
  | _ => false

def coinbaseSpendRestriction (allowUnshielded : Bool) (spendHeight : Nat)
    (transaction : Transaction) : CoinbaseSpendRestriction :=
  if transaction.outputs = [] ∨ allowUnshielded then .checkCoinbaseMaturity spendHeight
  else .disallowCoinbaseSpend

def spends (transaction : Transaction) : List OutPoint :=
  transaction.inputs.filterMap Input.outpoint

end Transaction

namespace Check

section

/-- Find the output a transaction spends. Outputs of the block itself are looked up first, then
spends of the parent chain, then the outputs of the chain and of the finalized state. -/
def transparentSpendChainOrder (spend : OutPoint) (spendTxIndexInBlock : Nat)
    (blockNewOutputs chainCreatedUtxos : FiniteMap OutPoint OrderedUtxo)
    (chainSpentUtxos : FiniteMap OutPoint (Option TransactionHash))
    (finalizedUtxos : FiniteMap OutPoint OrderedUtxo) : Except ContextError OrderedUtxo :=
  match blockNewOutputs.lookup spend with
  | some output =>
    if spendTxIndexInBlock ≤ output.txIndexInBlock then .error (.earlyTransparentSpend spend)
    else .ok output
  | none =>
    if (chainSpentUtxos.lookup spend).isSome then
      .error (.duplicateTransparentSpend spend "the non-finalized chain")
    else
      match (chainCreatedUtxos.lookup spend).or (finalizedUtxos.lookup spend) with
      | some utxo => .ok utxo
      | none => .error
          (.missingTransparentOutput spend "the non-finalized and finalized chain")

/-- Coinbase outputs are spent by mature transactions without transparent outputs only. -/
def transparentCoinbaseSpend (outpoint : OutPoint) (restriction : CoinbaseSpendRestriction)
    (utxo : Utxo) : Except ContextError Unit :=
  if !utxo.fromCoinbase then .ok ()
  else
    match restriction with
    | .checkCoinbaseMaturity spendHeight =>
      let minSpendHeight := utxo.height + minTransparentCoinbaseMaturity
      if minSpendHeight ≤ spendHeight then .ok ()
      else .error
        (.immatureTransparentCoinbaseSpend outpoint spendHeight minSpendHeight utxo.height)
    | .disallowCoinbaseSpend => .error (.unshieldedTransparentCoinbaseSpend outpoint)

variable (settings : ContextSettings History)

def transparentSpendStep (prepared : SemanticallyVerifiedBlock) (index : ChainIndex)
    (finalized : FinalizedState History) (spendTxIndexInBlock : Nat) (transaction : Transaction)
    (blockSpends : FiniteMap OutPoint OrderedUtxo) (spend : OutPoint) :
    Except ContextError (FiniteMap OutPoint OrderedUtxo) := do
  let utxo ← transparentSpendChainOrder spend spendTxIndexInBlock prepared.newOutputs
    index.createdUtxos index.spentUtxos finalized.utxos
  transparentCoinbaseSpend spend
    (transaction.coinbaseSpendRestriction settings.shouldAllowUnshieldedCoinbaseSpends
      prepared.height) utxo.utxo
  if (blockSpends.lookup spend).isSome then
    .error (.duplicateTransparentSpend spend "the same block")
  else return blockSpends.insert spend utxo

def remainingTransactionValue (prepared : SemanticallyVerifiedBlock)
    (utxos : FiniteMap OutPoint OrderedUtxo) : Except ContextError Unit :=
  (prepared.block.transactions.zip prepared.transactionHashes).zipIdx.forM fun entry =>
    if entry.1.1.isCoinbase then .ok ()
    else (settings.remainingTransactionValue entry.1.1 utxos).mapError
      (.remainingTransactionValue · prepared.height entry.2 entry.1.2)

def transparentSpend (prepared : SemanticallyVerifiedBlock) (index : ChainIndex)
    (finalized : FinalizedState History) :
    Except ContextError (FiniteMap OutPoint OrderedUtxo) := do
  let blockSpends ← prepared.block.transactions.zipIdx.foldlM (fun blockSpends entry =>
    entry.1.spends.foldlM
      (transparentSpendStep settings prepared index finalized entry.2 entry.1) blockSpends)
    (∅ : FiniteMap OutPoint OrderedUtxo)
  remainingTransactionValue settings prepared blockSpends
  return blockSpends

end

section

def anchorsOf (transaction : Transaction) (pool : ShieldedPool) : List Root :=
  ((transaction.shieldedData pool).map ShieldedData.anchors).getD []

def chainAnchors (pool : ShieldedPool) (chain : Chain History) : Multiset Root :=
  match pool with
  | .sprout => chain.sprout.index.anchors
  | .sapling => chain.sapling.anchors
  | .orchard => chain.orchard.anchors
  | .ironwood => chain.ironwood.anchors

def saplingOrchardIronwoodAnchorsReferToFinalTreestates (finalized : FinalizedState History)
    (parentChain : Chain History) (transaction : Transaction) (transactionHash : TransactionHash)
    (txIndexInBlock height : Nat) : Except ContextError Unit :=
  [ShieldedPool.sapling, .orchard, .ironwood].forM fun pool =>
    (anchorsOf transaction pool).forM fun anchor =>
      if anchor ∉ chainAnchors pool parentChain ∧ anchor ∉ finalized.anchors pool then
        .error (.unknownAnchor pool anchor height txIndexInBlock transactionHash)
      else .ok ()

def blockSaplingOrchardIronwoodAnchorsReferToFinalTreestates (finalized : FinalizedState History)
    (parentChain : Chain History) (prepared : SemanticallyVerifiedBlock) :
    Except ContextError Unit :=
  (prepared.block.transactions.zip prepared.transactionHashes).zipIdx.forM fun entry =>
    saplingOrchardIronwoodAnchorsReferToFinalTreestates finalized parentChain entry.1.1 entry.1.2
      entry.2 prepared.height

/-- Fetch the trees of the Sprout anchors of a transaction that are not fetched yet. -/
def fetchSproutFinalTreestates (finalized : FinalizedState History) (parentChain : Chain History)
    (fetched : FiniteMap Root NoteCommitmentTree) (transaction : Transaction) :
    FiniteMap Root NoteCommitmentTree :=
  transaction.joinsplits.foldl (fun fetched joinsplit =>
    if (fetched.lookup joinsplit.anchor).isSome then fetched
    else
      match (parentChain.sprout.treesByAnchor.lookup joinsplit.anchor).or
          (finalized.sproutTreesByAnchor.lookup joinsplit.anchor) with
      | some inputTree => fetched.insert joinsplit.anchor inputTree
      | none => fetched) fetched

def blockFetchSproutFinalTreestates (finalized : FinalizedState History)
    (parentChain : Chain History) (prepared : SemanticallyVerifiedBlock) :
    FiniteMap Root NoteCommitmentTree :=
  prepared.block.transactions.foldl (fetchSproutFinalTreestates finalized parentChain) ∅

variable [CommitmentHasher]

/-- Check the JoinSplits of a transaction in order, keeping the trees after each of them. The tree
after the last JoinSplit is not needed. -/
def sproutJoinsplitAnchors (finalTreestates : FiniteMap Root NoteCommitmentTree)
    (transactionHash : TransactionHash) (txIndexInBlock height : Nat) :
    List JoinSplit → FiniteMap Root NoteCommitmentTree → Except ContextError Unit
  | [], _ => .ok ()
  | joinsplit :: rest, interstitialTrees =>
    match (interstitialTrees.lookup joinsplit.anchor).or
        (finalTreestates.lookup joinsplit.anchor) with
    | none => .error
        (.unknownAnchor .sprout joinsplit.anchor height txIndexInBlock transactionHash)
    | some inputTree =>
      if rest = [] then .ok ()
      else do
        let outputTree ← (inputTree.appendAll joinsplit.commitments).mapError
          (.chain <| .noteCommitmentTree .sprout ·)
        sproutJoinsplitAnchors finalTreestates transactionHash txIndexInBlock height rest
          (interstitialTrees.insert (outputTree.root .sprout) outputTree)

def sproutAnchorsReferToTreestates (finalTreestates : FiniteMap Root NoteCommitmentTree)
    (transaction : Transaction) (transactionHash : TransactionHash)
    (txIndexInBlock height : Nat) : Except ContextError Unit :=
  sproutJoinsplitAnchors finalTreestates transactionHash txIndexInBlock height
    transaction.joinsplits ∅

def blockSproutAnchorsReferToTreestates (finalTreestates : FiniteMap Root NoteCommitmentTree)
    (block : Block) (transactionHashes : List TransactionHash) (height : Nat) :
    Except ContextError Unit :=
  (block.transactions.zip transactionHashes).zipIdx.forM fun entry =>
    sproutAnchorsReferToTreestates finalTreestates entry.1.1 entry.1.2 entry.2 height

end

end Check

namespace FinalizedState

variable [CommitmentHasher]

/-- The anchors of a pool after a block. They are written when the tree changed. -/
def anchorsAfter (pool : ShieldedPool) (height : Nat) (old new : NoteCommitmentTree)
    (anchors : Finset Root) : Finset Root :=
  if height = 0 ∨ old.root pool ≠ new.root pool then insert (new.root pool) anchors else anchors

/-- Write a finalized block: its outputs are added, then the outputs it spends are removed. -/
def commitFinalizedDirect (settings : ChainSettings History) (block : ContextuallyVerifiedBlock)
    (treestate : Treestate History) (finalized : FinalizedState History) :
    Except ChainError (FinalizedState History) := do
  let trees := treestate.noteCommitmentTrees
  let transactions := block.block.transactions.zip block.transactionHashes
  let created := transactions.flatMap fun entry =>
    (List.range entry.1.outputs.length).filterMap fun index =>
      (block.newOutputs.lookup ⟨entry.2, index⟩).map fun utxo => (OutPoint.mk entry.2 index, utxo)
  let spent := transactions.flatMap fun entry => entry.1.spends
  let nullifiers := [ShieldedPool.sprout, .sapling, .orchard, .ironwood].flatMap fun pool =>
    transactions.flatMap fun entry => (entry.1.nullifiers pool).map fun nullifier =>
      (pool, nullifier)
  let (pools, _) ← Chain.updateValuePools settings block finalized.tip.chainValuePools ∅
  return {
    tip := {
      height := block.height
      sprout := trees.sprout
      sapling := trees.sapling
      orchard := trees.orchard
      ironwood := trees.ironwood
      history := treestate.historyTree
      chainValuePools := pools }
    tipHash := block.hash
    heightByHash := finalized.heightByHash.insert block.hash block.height
    utxos := spent.foldl (fun utxos outpoint => utxos.erase outpoint)
      (created.foldl (fun utxos entry => utxos.insert entry.1 entry.2) finalized.utxos)
    nullifiers := finalized.nullifiers ∪ nullifiers.toFinset
    anchors := fun pool =>
      match pool with
      | .sprout => finalized.anchors .sprout
      | .sapling => anchorsAfter .sapling block.height finalized.tip.sapling trees.sapling
          (finalized.anchors .sapling)
      | .orchard => anchorsAfter .orchard block.height finalized.tip.orchard trees.orchard
          (finalized.anchors .orchard)
      | .ironwood => anchorsAfter .ironwood block.height finalized.tip.ironwood trees.ironwood
          (finalized.anchors .ironwood)
    sproutTreesByAnchor :=
      if block.height = 0 ∨ finalized.tip.sprout.root .sprout ≠ trees.sprout.root .sprout then
        finalized.sproutTreesByAnchor.insert (trees.sprout.root .sprout) trees.sprout
      else finalized.sproutTreesByAnchor }

end FinalizedState

end Zakura.NonFinalized
