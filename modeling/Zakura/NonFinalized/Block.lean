import Zakura.HeaderChain.Types
import Zakura.NonFinalized.ValuePools

/-!
Transactions, contextually verified blocks, and the parameters a non-finalized
chain reads: the network's heights and seeds, addresses of outputs, block sizes
and the history tree.
-/

namespace Zakura.NonFinalized

open HeaderChain (Hash Header)

structure TransactionHash where
  bytes : BitVec 256
deriving DecidableEq, Repr

structure Nullifier where
  bytes : BitVec 256
deriving DecidableEq, Repr

structure NoteCommitment where
  bytes : BitVec 256
deriving DecidableEq, Repr

structure Root where
  bytes : BitVec 256
deriving DecidableEq, Repr

structure SubtreeRoot where
  bytes : BitVec 256
deriving DecidableEq, Repr

inductive ShieldedPool
  | sprout
  | sapling
  | orchard
  | ironwood
deriving DecidableEq, Repr

inductive NetworkKind
  | mainnet
  | testnet
  | regtest
deriving DecidableEq, Repr

inductive Address
  | payToScriptHash (networkKind : NetworkKind) (scriptHash : BitVec 160)
  | payToPublicKeyHash (networkKind : NetworkKind) (pubKeyHash : BitVec 160)
  | tex (networkKind : NetworkKind) (validatingKeyHash : BitVec 160)
deriving DecidableEq, Repr

structure OutPoint where
  hash : TransactionHash
  index : Nat
deriving DecidableEq, Repr

inductive Input
  | prevOut (outpoint : OutPoint)
  | coinbase (height : Nat)
deriving DecidableEq, Repr

def Input.outpoint : Input → Option OutPoint
  | .prevOut outpoint => some outpoint
  | .coinbase _ => none

structure Output where
  value : Amount .nonNegative
  lockScript : List (BitVec 8)
deriving DecidableEq

structure Utxo where
  output : Output
  height : Nat
  fromCoinbase : Bool
deriving DecidableEq

/-- An output with the index of its transaction in the block at its height. -/
structure OrderedUtxo where
  utxo : Utxo
  txIndexInBlock : Nat
deriving DecidableEq

structure TransactionLocation where
  height : Nat
  index : Nat
deriving DecidableEq, Repr

structure OutputLocation where
  transactionLocation : TransactionLocation
  outputIndex : Nat
deriving DecidableEq, Repr

def OrderedUtxo.transactionLocation (utxo : OrderedUtxo) : TransactionLocation where
  height := utxo.utxo.height
  index := utxo.txIndexInBlock

def OutputLocation.fromOutpoint (location : TransactionLocation) (outpoint : OutPoint) :
    OutputLocation where
  transactionLocation := location
  outputIndex := outpoint.index

structure JoinSplit where
  anchor : Root
  nullifiers : List Nullifier
  commitments : List NoteCommitment
deriving DecidableEq, Repr

/-- The anchors, nullifiers and note commitments of a Sapling, Orchard or Ironwood bundle. -/
structure ShieldedData where
  anchors : List Root
  nullifiers : List Nullifier
  noteCommitments : List NoteCommitment
deriving DecidableEq, Repr

/-- Versions 1 to 3 exist in finalized blocks only, so their contents are not read here. -/
inductive Transaction
  | v1
  | v2
  | v3
  | v4 (inputs : List Input) (outputs : List Output) (joinsplitData : Option (List JoinSplit))
      (saplingShieldedData : Option ShieldedData)
  | v5 (inputs : List Input) (outputs : List Output) (saplingShieldedData : Option ShieldedData)
      (orchardShieldedData : Option ShieldedData)
  | v6 (inputs : List Input) (outputs : List Output) (saplingShieldedData : Option ShieldedData)
      (orchardShieldedData : Option ShieldedData) (ironwoodShieldedData : Option ShieldedData)
deriving DecidableEq

namespace Transaction

def inputs : Transaction → List Input
  | .v4 inputs _ _ _ | .v5 inputs _ _ _ | .v6 inputs _ _ _ _ => inputs
  | .v1 | .v2 | .v3 => []

def outputs : Transaction → List Output
  | .v4 _ outputs _ _ | .v5 _ outputs _ _ | .v6 _ outputs _ _ _ => outputs
  | .v1 | .v2 | .v3 => []

def joinsplits : Transaction → List JoinSplit
  | .v4 _ _ joinsplitData _ => joinsplitData.getD []
  | _ => []

def saplingShieldedData : Transaction → Option ShieldedData
  | .v4 _ _ _ sapling | .v5 _ _ sapling _ | .v6 _ _ sapling _ _ => sapling
  | .v1 | .v2 | .v3 => none

def orchardShieldedData : Transaction → Option ShieldedData
  | .v5 _ _ _ orchard | .v6 _ _ _ orchard _ => orchard
  | _ => none

def ironwoodShieldedData : Transaction → Option ShieldedData
  | .v6 _ _ _ _ ironwood => ironwood
  | _ => none

def shieldedData (transaction : Transaction) : ShieldedPool → Option ShieldedData
  | .sprout => none
  | .sapling => transaction.saplingShieldedData
  | .orchard => transaction.orchardShieldedData
  | .ironwood => transaction.ironwoodShieldedData

def nullifiers (transaction : Transaction) : ShieldedPool → List Nullifier
  | .sprout => transaction.joinsplits.flatMap JoinSplit.nullifiers
  | pool => ((transaction.shieldedData pool).map ShieldedData.nullifiers).getD []

def noteCommitments (transaction : Transaction) : ShieldedPool → List NoteCommitment
  | .sprout => transaction.joinsplits.flatMap JoinSplit.commitments
  | pool => ((transaction.shieldedData pool).map ShieldedData.noteCommitments).getD []

def isUnsupported : Transaction → Bool
  | .v1 | .v2 | .v3 => true
  | _ => false

end Transaction

structure Block where
  header : Header
  transactions : List Transaction
deriving DecidableEq

def Block.coinbaseHeight (block : Block) : Option Nat :=
  match block.transactions.head?.bind fun transaction => transaction.inputs.head? with
  | some (.coinbase height) => some height
  | _ => none

def Block.noteCommitments (block : Block) (pool : ShieldedPool) : List NoteCommitment :=
  block.transactions.flatMap fun transaction => transaction.noteCommitments pool

/-- A block that passed contextual verification, with the outputs it creates and spends. -/
structure ContextuallyVerifiedBlock where
  block : Block
  hash : Hash
  height : Nat
  newOutputs : FiniteMap OutPoint OrderedUtxo
  spentOutputs : FiniteMap OutPoint OrderedUtxo
  transactionHashes : List TransactionHash
  chainValuePoolChange : ValueBalance .negativeAllowed
  receiptOrder : Option Nat
  heightAgrees : block.coinbaseHeight = some height

inductive HistoryTreeError
  | innerError
  | ioError
  | invalidCachedTree (reason : String)
  | missingBranchId
deriving DecidableEq, Repr

inductive NoteCommitmentTreeError
  | fullTree
deriving DecidableEq, Repr

/-- Where the NSM balance immediately before NU7 comes from. -/
inductive NsmSeed
  | configured (seed : Amount .nonNegative)
  | derived
  | measured (expected : Amount .nonNegative)
deriving DecidableEq

/-- What a chain reads of its network, its configuration, and the code outside this source. -/
structure ChainSettings (History : Type) where
  nu7ActivationHeight : Option Nat
  nsmSeed : NsmSeed
  scheduledIssuance : Nat → Except SubsidyError Nat
  outputAddress : Output → Option Address
  skipsTransparentAddressIndex : Bool
  indexer : Bool
  serializedSize : Block → Nat
  pushHistory : History → Block → Root → Root → Root → Except HistoryTreeError History

inductive ChainError
  | cumulativeWorkOverflow (height : Nat) (hash : Hash)
  | duplicateNullifier (pool : ShieldedPool) (nullifier : Nullifier) (inFinalizedState : Bool)
  | noteCommitmentTree (pool : ShieldedPool) (error : NoteCommitmentTreeError)
  | negativeNsmValueBalance (height : Nat) (before change : Amount .negativeAllowed)
  | addValuePool (error : ValueBalanceError) (pools : ValueBalance .nonNegative)
      (change : ValueBalance .negativeAllowed) (height : Nat)
  | historyTree (error : HistoryTreeError)
  | panic (message : String)
deriving DecidableEq

def expect {Value : Type} (value : Option Value) (message : String) : Except ChainError Value :=
  match value with
  | some value => .ok value
  | none => .error (.panic message)

theorem expect_eq_ok {Value : Type} {found : Option Value} {message : String} {value : Value} :
    expect found message = .ok value ↔ found = some value := by
  cases found <;> simp [expect]

namespace ChainSettings

variable {History : Type}

def indexedAddress (settings : ChainSettings History) (output : Output) : Option Address :=
  if settings.skipsTransparentAddressIndex then none else settings.outputAddress output

def spendingTransactionId (settings : ChainSettings History) (hash : TransactionHash) :
    Option TransactionHash :=
  if settings.indexer then some hash else none

def seedHeight (settings : ChainSettings History) : Option Nat :=
  settings.nu7ActivationHeight.bind fun activation =>
    if 0 < activation then some (activation - 1) else none

/-- The seed derived from the pools at a height before NU7, checked on public networks. -/
def initialNsmValueBalance (settings : ChainSettings History) (height : Nat)
    (pools : ValueBalance .nonNegative) : Except ValueBalanceError (Amount .nonNegative) := do
  match settings.nsmSeed with
  | .configured seed => return seed
  | source =>
    let scheduled ← (settings.scheduledIssuance height).mapError .scheduledIssuance
    let issued ← pools.total.mapError .total
    let difference := (scheduled : Int) - issued.zatoshis
    if difference < -(2 ^ 63) ∨ 2 ^ 63 ≤ difference then .error (.scheduledIssuance .overflow)
    else
      let seed ← (Amount.ofInt .nonNegative difference).mapError .nsmValueBalance
      match source with
      | .measured expected =>
        if seed = expected then return seed else .error (.nsmSeedMismatch seed expected)
      | _ => return seed

def seedNsmValueBalance (settings : ChainSettings History) (height : Nat)
    (pools : ValueBalance .nonNegative) : Except ValueBalanceError (ValueBalance .nonNegative) :=
  if settings.seedHeight = some height then do
    let seed ← settings.initialNsmValueBalance height pools
    return pools.setNsmValueBalanceAmount seed.toNegativeAllowed
  else .ok pools

def nsmValueBalanceIsNonNegative (settings : ChainSettings History) (height : Nat)
    (pools : ValueBalance .nonNegative) (change : ValueBalance .negativeAllowed) :
    Except ChainError Unit :=
  if settings.nu7ActivationHeight.any (· ≤ height) then
    match pools.nsmValueBalance.add change.nsmValueBalance with
    | .ok after =>
      if after.zatoshis < 0 then
        .error (.negativeNsmValueBalance height pools.nsmValueBalance change.nsmValueBalance)
      else .ok ()
    | .error _ =>
      .error (.negativeNsmValueBalance height pools.nsmValueBalance change.nsmValueBalance)
  else .ok ()

end ChainSettings

end Zakura.NonFinalized
