import Zakura.NonFinalized.Block
import Zakura.Lib.OrderedMap

/-!
The indexes of a non-finalized chain that a block changes entry by entry: heights,
transaction locations, outputs, spends, nullifiers, address transfers and work.
`updateChainTipWith` adds one piece of a block at the tip, `revertChainWith` takes
it back from either end of the chain.
-/

namespace Zakura.NonFinalized

open HeaderChain (Hash u256Bound)

variable {History : Type}

structure TransparentTransfers where
  balance : Int
  txIds : Multiset TransactionHash
  createdUtxos : FiniteMap OutputLocation Output
  spentUtxos : Finset OutputLocation
deriving DecidableEq

namespace TransparentTransfers

def empty : TransparentTransfers where
  balance := 0
  txIds := 0
  createdUtxos := ∅
  spentUtxos := ∅

def isEmpty (transfers : TransparentTransfers) : Bool :=
  transfers.balance = 0 ∧ transfers.txIds = 0 ∧ transfers.createdUtxos = ∅ ∧
    transfers.spentUtxos = ∅

/-- The balance after adding a signed value, which must be a valid signed amount. -/
def movedBalance (transfers : TransparentTransfers) (value : Int) (message : String) :
    Except ChainError Int :=
  if Constraint.negativeAllowed.Holds (transfers.balance + value) then
    .ok (transfers.balance + value)
  else .error (.panic message)

def updateWithCreated (outpoint : OutPoint) (created : OrderedUtxo)
    (transfers : TransparentTransfers) : Except ChainError TransparentTransfers := do
  let balance ← transfers.movedBalance created.utxo.output.value.zatoshis
    "total UTXO value has already been checked"
  let location := OutputLocation.fromOutpoint created.transactionLocation outpoint
  if (transfers.createdUtxos.lookup location).isSome then
    .error (.panic "unexpected created output: duplicate update or duplicate UTXO")
  else
    return { transfers with
      balance := balance
      createdUtxos := transfers.createdUtxos.insert location created.utxo.output
      txIds := outpoint.hash ::ₘ transfers.txIds }

def revertCreated (outpoint : OutPoint) (created : OrderedUtxo)
    (transfers : TransparentTransfers) : Except ChainError TransparentTransfers := do
  let balance ← transfers.movedBalance (-created.utxo.output.value.zatoshis)
    "reversing previous balance changes is always valid"
  let location := OutputLocation.fromOutpoint created.transactionLocation outpoint
  if (transfers.createdUtxos.lookup location).isNone then
    .error (.panic "unexpected revert of created output: duplicate update or duplicate UTXO")
  else if outpoint.hash ∉ transfers.txIds then
    .error (.panic "unexpected revert of created output transaction: duplicate revert, or revert of an output that was never updated")
  else
    return { transfers with
      balance := balance
      createdUtxos := transfers.createdUtxos.erase location
      txIds := transfers.txIds.erase outpoint.hash }

def updateWithSpent (outpoint : OutPoint) (spendingTxHash : TransactionHash) (spent : OrderedUtxo)
    (transfers : TransparentTransfers) : Except ChainError TransparentTransfers := do
  let balance ← transfers.movedBalance (-spent.utxo.output.value.zatoshis)
    "total UTXO value has already been checked"
  let location := OutputLocation.fromOutpoint spent.transactionLocation outpoint
  if location ∈ transfers.spentUtxos then
    .error (.panic "unexpected spent output: duplicate update or duplicate spend")
  else
    return { transfers with
      balance := balance
      spentUtxos := insert location transfers.spentUtxos
      txIds := spendingTxHash ::ₘ transfers.txIds }

def revertSpent (outpoint : OutPoint) (spendingTxHash : TransactionHash) (spent : OrderedUtxo)
    (transfers : TransparentTransfers) : Except ChainError TransparentTransfers := do
  let balance ← transfers.movedBalance spent.utxo.output.value.zatoshis
    "reversing previous balance changes is always valid"
  let location := OutputLocation.fromOutpoint spent.transactionLocation outpoint
  if location ∉ transfers.spentUtxos then
    .error (.panic "unexpected revert of spent output: duplicate revert, or revert of a spent output that was never updated")
  else if spendingTxHash ∉ transfers.txIds then
    .error (.panic "unexpected revert of spending input transaction: duplicate revert, or revert of an input that was never updated")
  else
    return { transfers with
      balance := balance
      spentUtxos := transfers.spentUtxos.erase location
      txIds := transfers.txIds.erase spendingTxHash }

end TransparentTransfers

structure ChainIndex where
  heightByHash : FiniteMap Hash Nat
  txLocByHash : FiniteMap TransactionHash TransactionLocation
  createdUtxos : FiniteMap OutPoint OrderedUtxo
  spentUtxos : FiniteMap OutPoint (Option TransactionHash)
  nullifiers : FiniteMap (ShieldedPool × Nullifier) (Option TransactionHash)
  partialTransparentTransfers : FiniteMap Address TransparentTransfers
  partialCumulativeWork : Nat
deriving DecidableEq

def ChainIndex.empty : ChainIndex where
  heightByHash := ∅
  txLocByHash := ∅
  createdUtxos := ∅
  spentUtxos := ∅
  nullifiers := ∅
  partialTransparentTransfers := ∅
  partialCumulativeWork := 0

/-- The pieces of a block. A created or spent output comes with what the block's own output maps
hold for it, a work with the block it would be reported for. -/
inductive ChainUpdate
  | work (work : Option Nat) (height : Nat) (hash : Hash)
  | blockHash (hash : Hash) (height : Nat)
  | nullifier (pool : ShieldedPool) (nullifier : Nullifier) (revealing : Option TransactionHash)
  | transactionLocation (hash : TransactionHash) (location : TransactionLocation)
  | createdOutput (outpoint : OutPoint) (created : Option OrderedUtxo)
  | spentOutput (outpoint : OutPoint) (spendingTxHash : TransactionHash)
      (spent : Option OrderedUtxo)
  | unsupportedVersion

def unsupportedVersionMessage : String :=
  "older transaction versions only exist in finalized blocks, because of the mandatory canopy checkpoint"

namespace ChainIndex

variable (settings : ChainSettings History)

def updateTransfers (address : Option Address)
    (change : TransparentTransfers → Except ChainError TransparentTransfers)
    (transfers : FiniteMap Address TransparentTransfers) :
    Except ChainError (FiniteMap Address TransparentTransfers) :=
  match address with
  | none => .ok transfers
  | some address => do
      let changed ← change ((transfers.lookup address).getD .empty)
      return transfers.insert address changed

/-- Change the entry of an address, dropping it when it becomes empty. -/
def revertTransfers (address : Option Address)
    (change : TransparentTransfers → Except ChainError TransparentTransfers)
    (transfers : FiniteMap Address TransparentTransfers) :
    Except ChainError (FiniteMap Address TransparentTransfers) :=
  match address with
  | none => .ok transfers
  | some address =>
    match transfers.lookup address with
    | none => .error (.panic "block has previously been applied to the chain")
    | some current => do
        let changed ← change current
        return if changed.isEmpty then transfers.erase address else transfers.insert address changed

def updateChainTipWith (update : ChainUpdate) (index : ChainIndex) : Except ChainError ChainIndex :=
  match update with
  | .work none _ _ => .error (.panic "work has already been validated")
  | .work (some work) height hash =>
    if index.partialCumulativeWork + work < u256Bound then
      .ok { index with partialCumulativeWork := index.partialCumulativeWork + work }
    else .error (.cumulativeWorkOverflow height hash)
  | .blockHash hash height =>
    if (index.heightByHash.lookup hash).isSome then
      .error (.panic "block heights must be unique within a single chain")
    else .ok { index with heightByHash := index.heightByHash.insert hash height }
  | .nullifier pool nullifier revealing =>
    if (index.nullifiers.lookup (pool, nullifier)).isSome then
      .error (.duplicateNullifier pool nullifier false)
    else .ok { index with nullifiers := index.nullifiers.insert (pool, nullifier) revealing }
  | .transactionLocation hash location =>
    if (index.txLocByHash.lookup hash).isSome then
      .error (.panic "transactions must be unique within a single chain")
    else .ok { index with txLocByHash := index.txLocByHash.insert hash location }
  | .createdOutput _ none => .error (.panic "new_outputs contains all created UTXOs")
  | .createdOutput outpoint (some created) =>
    if (index.createdUtxos.lookup outpoint).isSome then
      .error (.panic "unexpected created output: duplicate update or duplicate UTXO")
    else do
      let transfers ← updateTransfers (settings.indexedAddress created.utxo.output)
        (·.updateWithCreated outpoint created) index.partialTransparentTransfers
      return { index with
        createdUtxos := index.createdUtxos.insert outpoint created
        partialTransparentTransfers := transfers }
  | .spentOutput outpoint spendingTxHash spent =>
    if (index.spentUtxos.lookup outpoint).isSome then
      .error (.panic "unexpected duplicate spent output: should be checked earlier")
    else
      match spent with
      | none =>
        .error (.panic "unexpected missing spent output: all spent outputs must be indexed")
      | some spent => do
          let transfers ← updateTransfers (settings.indexedAddress spent.utxo.output)
            (·.updateWithSpent outpoint spendingTxHash spent) index.partialTransparentTransfers
          return { index with
            spentUtxos :=
              index.spentUtxos.insert outpoint (settings.spendingTransactionId spendingTxHash)
            partialTransparentTransfers := transfers }
  | .unsupportedVersion => .error (.panic unsupportedVersionMessage)

def revertChainWith (update : ChainUpdate) (index : ChainIndex) : Except ChainError ChainIndex :=
  match update with
  | .work none _ _ => .error (.panic "work has already been validated")
  | .work (some work) _ _ =>
    if work ≤ index.partialCumulativeWork then
      .ok { index with partialCumulativeWork := index.partialCumulativeWork - work }
    else
      .error (.panic "subtracted block work was previously included in cumulative work")
  | .blockHash hash _ =>
    if (index.heightByHash.lookup hash).isSome then
      .ok { index with heightByHash := index.heightByHash.erase hash }
    else .error (.panic "hash must be present if block was added to chain")
  | .nullifier pool nullifier _ =>
    if (index.nullifiers.lookup (pool, nullifier)).isSome then
      .ok { index with nullifiers := index.nullifiers.erase (pool, nullifier) }
    else .error (.panic "nullifier must be present if block was added to chain")
  | .transactionLocation hash _ =>
    if (index.txLocByHash.lookup hash).isSome then
      .ok { index with txLocByHash := index.txLocByHash.erase hash }
    else .error (.panic "transactions must be present if block was added to chain")
  | .createdOutput _ none => .error (.panic "new_outputs contains all created UTXOs")
  | .createdOutput outpoint (some created) =>
    if (index.createdUtxos.lookup outpoint).isSome then do
      let transfers ← revertTransfers (settings.indexedAddress created.utxo.output)
        (·.revertCreated outpoint created) index.partialTransparentTransfers
      return { index with
        createdUtxos := index.createdUtxos.erase outpoint
        partialTransparentTransfers := transfers }
    else
      .error (.panic "unexpected revert of created output: duplicate revert or duplicate UTXO")
  | .spentOutput outpoint spendingTxHash spent =>
    if (index.spentUtxos.lookup outpoint).isSome then
      match spent with
      | none => .error
          (.panic "unexpected missing reverted spent output: all spent outputs must be indexed")
      | some spent => do
          let transfers ← revertTransfers (settings.indexedAddress spent.utxo.output)
            (·.revertSpent outpoint spendingTxHash spent) index.partialTransparentTransfers
          return { index with
            spentUtxos := index.spentUtxos.erase outpoint
            partialTransparentTransfers := transfers }
    else .error (.panic "spent_utxos must be present if block was added to chain")
  | .unsupportedVersion => .error (.panic unsupportedVersionMessage)

end ChainIndex

namespace ContextuallyVerifiedBlock

variable (settings : ChainSettings History)

def work (block : ContextuallyVerifiedBlock) : Option Nat :=
  block.block.header.difficultyThreshold.toWork

def indexedTransactions (block : ContextuallyVerifiedBlock) :
    List (Nat × Transaction × TransactionHash) :=
  ((block.block.transactions.zip block.transactionHashes).zipIdx).map fun entry =>
    (entry.2, entry.1.1, entry.1.2)

def createdOutputs (block : ContextuallyVerifiedBlock) (transaction : Transaction)
    (hash : TransactionHash) : List ChainUpdate :=
  (List.range transaction.outputs.length).map fun index =>
    .createdOutput ⟨hash, index⟩ (block.newOutputs.lookup ⟨hash, index⟩)

def spentInputs (block : ContextuallyVerifiedBlock) (transaction : Transaction)
    (hash : TransactionHash) : List ChainUpdate :=
  (transaction.inputs.filterMap Input.outpoint).map fun outpoint =>
    .spentOutput outpoint hash (block.spentOutputs.lookup outpoint)

def revealedNullifiers (transaction : Transaction) (hash : TransactionHash)
    (pool : ShieldedPool) : List ChainUpdate :=
  (transaction.nullifiers pool).map fun nullifier =>
    .nullifier pool nullifier (settings.spendingTransactionId hash)

def shieldedUpdates (transaction : Transaction) (hash : TransactionHash) : List ChainUpdate :=
  revealedNullifiers settings transaction hash .sprout ++
    revealedNullifiers settings transaction hash .sapling ++
    revealedNullifiers settings transaction hash .orchard ++
    revealedNullifiers settings transaction hash .ironwood

/-- The updates of one transaction: nullifiers, location, created outputs, spent outputs. -/
def transactionUpdates (block : ContextuallyVerifiedBlock) :
    Nat × Transaction × TransactionHash → List ChainUpdate
  | (index, transaction, hash) =>
    if transaction.isUnsupported then [.unsupportedVersion]
    else
      shieldedUpdates settings transaction hash ++
        [.transactionLocation hash ⟨block.height, index⟩] ++
        block.createdOutputs transaction hash ++ block.spentInputs transaction hash

/-- What is reverted for one transaction: created outputs, spent outputs, location, nullifiers. -/
def transactionReverts (block : ContextuallyVerifiedBlock) :
    Nat × Transaction × TransactionHash → List ChainUpdate
  | (index, transaction, hash) =>
    if transaction.isUnsupported then [.unsupportedVersion]
    else
      block.createdOutputs transaction hash ++ block.spentInputs transaction hash ++
        [.transactionLocation hash ⟨block.height, index⟩] ++
        shieldedUpdates settings transaction hash

def updates (block : ContextuallyVerifiedBlock) : List ChainUpdate :=
  .work block.work block.height block.hash :: .blockHash block.hash block.height ::
    block.indexedTransactions.flatMap (block.transactionUpdates settings)

/-- All reverts of a block. Transactions are reverted first to last, as they were added. -/
def reverts (block : ContextuallyVerifiedBlock) : List ChainUpdate :=
  .blockHash block.hash block.height :: .work block.work block.height block.hash ::
    block.indexedTransactions.flatMap (block.transactionReverts settings)

end ContextuallyVerifiedBlock

namespace ChainIndex

variable (settings : ChainSettings History)

def updateWithBlock (block : ContextuallyVerifiedBlock) (index : ChainIndex) :
    Except ChainError ChainIndex :=
  (block.updates settings).foldlM (fun current update => updateChainTipWith settings update current)
    index

def revertBlock (block : ContextuallyVerifiedBlock) (index : ChainIndex) :
    Except ChainError ChainIndex :=
  (block.reverts settings).foldlM (fun current update => revertChainWith settings update current)
    index

end ChainIndex

end Zakura.NonFinalized
