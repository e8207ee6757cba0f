import Zakura.NonFinalized.IndexCore
import Zakura.NonFinalized.TreesCore

/-!
A non-finalized chain: pushing a block at the tip, popping the tip or the root,
forking at a block, and reading trees by height or hash.
-/

namespace Zakura.NonFinalized

open FiniteMap

open HeaderChain (Hash)

structure BlockInfo where
  valuePools : ValueBalance .nonNegative
  size : Nat
deriving DecidableEq

/-- The internal state of a chain. `History` is the type of the history trees. -/
structure Chain (History : Type) where
  blocks : FiniteMap Nat ContextuallyVerifiedBlock
  index : ChainIndex
  sprout : SproutIndex
  sapling : TreeIndex
  saplingSubtrees : Subtrees
  orchard : TreeIndex
  orchardSubtrees : Subtrees
  ironwood : TreeIndex
  ironwoodSubtrees : Subtrees
  historyTreesByHeight : FiniteMap Nat History
  chainValuePools : ValueBalance .nonNegative
  blockInfoByHeight : FiniteMap Nat BlockInfo

/-- The trees after a block, with the subtrees the block completed. -/
structure Treestate (History : Type) where
  noteCommitmentTrees : NoteCommitmentTrees
  historyTree : History

/-- What a chain is started from: the finalized tip with its trees and pools. -/
structure FinalizedTip (History : Type) where
  height : Nat
  sprout : NoteCommitmentTree
  sapling : NoteCommitmentTree
  orchard : NoteCommitmentTree
  ironwood : NoteCommitmentTree
  history : History
  chainValuePools : ValueBalance .nonNegative

inductive HashOrHeight
  | hash (hash : Hash)
  | height (height : Nat)
deriving DecidableEq

def onlyCalledWhilePopulated : String :=
  "only called while blocks is populated"

/-- Both results of two tasks run side by side: a panic of the second task wins, then the first
task's error is reported. -/
def bothTasks {First Second : Type} (first : Except ChainError First)
    (second : Except ChainError Second) : Except ChainError (First × Second) :=
  match first, second with
  | _, .error (.panic message) => .error (.panic message)
  | .error error, _ => .error error
  | .ok _, .error error => .error error
  | .ok first, .ok second => .ok (first, second)

namespace Chain

variable {History : Type}

def isEmpty (chain : Chain History) : Bool :=
  chain.blocks.keys = ∅

def maxBlockHeight (chain : Chain History) : Option Nat :=
  lastKey chain.blocks

def rootHeight (chain : Chain History) : Option Nat :=
  firstKey chain.blocks

def tipBlock (chain : Chain History) : Option ContextuallyVerifiedBlock :=
  lastValue chain.blocks

def tipHash (chain : Chain History) : Option Hash :=
  chain.tipBlock.map (·.hash)

def heightOf (query : HashOrHeight) (chain : Chain History) : Option Nat :=
  match query with
  | .hash hash => chain.index.heightByHash.lookup hash
  | .height height => some height

def sproutTree (query : HashOrHeight) (chain : Chain History) : Option NoteCommitmentTree :=
  (chain.heightOf query).bind chain.sprout.index.treeAt

def saplingTree (query : HashOrHeight) (chain : Chain History) : Option NoteCommitmentTree :=
  (chain.heightOf query).bind chain.sapling.treeAt

def orchardTree (query : HashOrHeight) (chain : Chain History) : Option NoteCommitmentTree :=
  (chain.heightOf query).bind chain.orchard.treeAt

def ironwoodTree (query : HashOrHeight) (chain : Chain History) : Option NoteCommitmentTree :=
  (chain.heightOf query).bind chain.ironwood.treeAt

def historyTree (query : HashOrHeight) (chain : Chain History) : Option History :=
  (chain.heightOf query).bind chain.historyTreesByHeight.lookup

def historyBlockCommitmentTree (chain : Chain History) : Option History :=
  lastValue chain.historyTreesByHeight

def subtreeForTip (subtrees : Subtrees) (chain : Chain History) : Option NoteCommitmentSubtree :=
  chain.maxBlockHeight.bind fun tip => subtrees.completedAt tip

def treestate (height : Nat) (chain : Chain History) : Option (Treestate History) := do
  let sprout ← chain.sproutTree (.height height)
  let sapling ← chain.saplingTree (.height height)
  let orchard ← chain.orchardTree (.height height)
  let ironwood ← chain.ironwoodTree (.height height)
  let history ← chain.historyTree (.height height)
  return {
    noteCommitmentTrees := {
      sprout := sprout
      sapling := sapling
      saplingSubtree := chain.saplingSubtrees.completedAt height
      orchard := orchard
      orchardSubtree := chain.orchardSubtrees.completedAt height
      ironwood := ironwood
      ironwoodSubtree := chain.ironwoodSubtrees.completedAt height }
    historyTree := history }

def treesForTip (chain : Chain History) : Except ChainError NoteCommitmentTrees := do
  let sprout ← expect chain.sprout.index.treeForTip
    "only called while sprout_trees_by_height is populated"
  let sapling ← expect chain.sapling.treeForTip
    "only called while sapling_trees_by_height is populated"
  let orchard ← expect chain.orchard.treeForTip
    "only called while orchard_trees_by_height is populated"
  let ironwood ← expect chain.ironwood.treeForTip
    "only called while ironwood_trees_by_height is populated"
  return {
    sprout := sprout
    sapling := sapling
    saplingSubtree := chain.subtreeForTip chain.saplingSubtrees
    orchard := orchard
    orchardSubtree := chain.subtreeForTip chain.orchardSubtrees
    ironwood := ironwood
    ironwoodSubtree := chain.subtreeForTip chain.ironwoodSubtrees }

def addHistoryTree (height : Nat) (tree : History) (trees : FiniteMap Nat History) :
    Except ChainError (FiniteMap Nat History) :=
  if (trees.lookup height).isSome then
    .error (.panic "incorrect overwrite of history tree: trees must be reverted then inserted")
  else .ok (trees.insert height tree)

def removeHistoryTree (position : RevertPosition) (height : Nat) (trees : FiniteMap Nat History) :
    Except ChainError (FiniteMap Nat History) :=
  match position with
  | .root => .ok (FiniteMap.retain (fun key _ => height < key) trees)
  | .tip =>
    if (trees.lookup height).isSome then .ok (trees.erase height)
    else .error (.panic "History tree must be present if block was added to chain")

section

variable (settings : ChainSettings History)

def updateValuePools (block : ContextuallyVerifiedBlock) (pools : ValueBalance .nonNegative)
    (infos : FiniteMap Nat BlockInfo) :
    Except ChainError (ValueBalance .nonNegative × FiniteMap Nat BlockInfo) := do
  settings.nsmValueBalanceIsNonNegative block.height pools block.chainValuePoolChange
  let changed ← ((pools.addChainValuePoolChange block.chainValuePoolChange).bind
    (settings.seedNsmValueBalance block.height)).mapError
      (.addValuePool · pools block.chainValuePoolChange block.height)
  return (changed,
    infos.insert block.height ⟨changed, settings.serializedSize block.block % 2 ^ 32⟩)

/-- Subtract the change of a tip block. The NSM seed is not part of a block's change. -/
def revertValuePools (position : RevertPosition) (block : ContextuallyVerifiedBlock)
    (pools : ValueBalance .nonNegative) : Except ChainError (ValueBalance .nonNegative) :=
  match position with
  | .root => .ok pools
  | .tip =>
    let unseeded := if settings.seedHeight = some block.height then
      pools.setNsmValueBalanceAmount .zero else pools
    match unseeded.addChainValuePoolChange block.chainValuePoolChange.neg with
    | .ok reverted => .ok reverted
    | .error _ => .error
        (.panic "reverting the tip will leave the pools in a previously valid state")

end

variable [CommitmentHasher] (settings : ChainSettings History)

def new (tip : FinalizedTip History) : Except ChainError (Chain History) := do
  let sprout ← SproutIndex.empty.addTreeAndAnchor tip.height tip.sprout
  let sapling ← TreeIndex.empty.addTreeAndAnchor .sapling tip.height tip.sapling
  let orchard ← TreeIndex.empty.addTreeAndAnchor .orchard tip.height tip.orchard
  let ironwood ← TreeIndex.empty.addTreeAndAnchor .ironwood tip.height tip.ironwood
  let history ← addHistoryTree tip.height tip.history ∅
  return {
    blocks := ∅
    index := .empty
    sprout := sprout
    sapling := sapling
    saplingSubtrees := ∅
    orchard := orchard
    orchardSubtrees := ∅
    ironwood := ironwood
    ironwoodSubtrees := ∅
    historyTreesByHeight := history
    chainValuePools := tip.chainValuePools
    blockInfoByHeight := ∅ }

def updateExceptTrees (block : ContextuallyVerifiedBlock) (chain : Chain History) :
    Except ChainError (ChainIndex × ValueBalance .nonNegative × FiniteMap Nat BlockInfo) := do
  let index ← chain.index.updateWithBlock settings block
  let (pools, infos) ← updateValuePools settings block chain.chainValuePools chain.blockInfoByHeight
  return (index, pools, infos)

def push (block : ContextuallyVerifiedBlock) (chain : Chain History) :
    Except ChainError (Chain History) := do
  let current ← chain.treesForTip
  let (trees, index, pools, infos) ← bothTasks (current.updateTreesParallel block.block)
    (chain.updateExceptTrees settings block)
  let sprout ← chain.sprout.addTreeAndAnchor block.height trees.sprout
  let sapling ← chain.sapling.addTreeAndAnchor .sapling block.height trees.sapling
  let orchard ← chain.orchard.addTreeAndAnchor .orchard block.height trees.orchard
  let ironwood ← chain.ironwood.addTreeAndAnchor .ironwood block.height trees.ironwood
  let saplingTip ← expect sapling.treeForTip
    "only called while sapling_trees_by_height is populated"
  let orchardTip ← expect orchard.treeForTip
    "only called while orchard_trees_by_height is populated"
  let ironwoodTip ← expect ironwood.treeForTip
    "only called while ironwood_trees_by_height is populated"
  let parentHistory ← expect chain.historyBlockCommitmentTree
    "only called while history_trees_by_height is populated"
  let history ← (settings.pushHistory parentHistory block.block (saplingTip.root .sapling)
    (orchardTip.root .orchard) (ironwoodTip.root .ironwood)).mapError .historyTree
  let histories ← addHistoryTree block.height history chain.historyTreesByHeight
  return {
    blocks := chain.blocks.insert block.height block
    index := index
    sprout := sprout
    sapling := sapling
    saplingSubtrees := chain.saplingSubtrees.addCompleted trees.saplingSubtree
    orchard := orchard
    orchardSubtrees := chain.orchardSubtrees.addCompleted trees.orchardSubtree
    ironwood := ironwood
    ironwoodSubtrees := chain.ironwoodSubtrees.addCompleted trees.ironwoodSubtree
    historyTreesByHeight := histories
    chainValuePools := pools
    blockInfoByHeight := infos }

def pushAll (blocks : List ContextuallyVerifiedBlock) (chain : Chain History) :
    Except ChainError (Chain History) :=
  blocks.foldlM (fun current block => push settings block current) chain

omit [CommitmentHasher]

/-- Take back what a block added, after the block itself left the chain. -/
def revertChainWith (position : RevertPosition) (block : ContextuallyVerifiedBlock)
    (chain : Chain History) : Except ChainError (Chain History) := do
  let index ← chain.index.revertBlock settings block
  let sprout ← chain.sprout.removeTreeAndAnchor position chain.maxBlockHeight block.height
  let sapling ← chain.sapling.removeTreeAndAnchor .sapling position chain.maxBlockHeight block.height
  let orchard ← chain.orchard.removeTreeAndAnchor .orchard position chain.maxBlockHeight block.height
  let ironwood ←
    chain.ironwood.removeTreeAndAnchor .ironwood position chain.maxBlockHeight block.height
  let histories ← removeHistoryTree position block.height chain.historyTreesByHeight
  let pools ← revertValuePools settings position block chain.chainValuePools
  return { chain with
    index := index
    sprout := sprout
    sapling := sapling
    orchard := orchard
    ironwood := ironwood
    historyTreesByHeight := histories
    chainValuePools := pools
    blockInfoByHeight := chain.blockInfoByHeight.erase block.height }

def popTip (chain : Chain History) : Except ChainError (Chain History) := do
  let height ← expect chain.maxBlockHeight onlyCalledWhilePopulated
  let block ← expect (chain.blocks.lookup height) onlyCalledWhilePopulated
  let remaining := { chain with
    blocks := chain.blocks.erase height
    saplingSubtrees := chain.saplingSubtrees.popLastAt height
    orchardSubtrees := chain.orchardSubtrees.popLastAt height
    ironwoodSubtrees := chain.ironwoodSubtrees.popLastAt height }
  if remaining.isEmpty then
    .error (.panic "Non-finalized chains must have at least one block to be valid")
  else remaining.revertChainWith settings .tip block

def popRoot (chain : Chain History) :
    Except ChainError ((ContextuallyVerifiedBlock × Treestate History) × Chain History) := do
  let height ← expect chain.rootHeight onlyCalledWhilePopulated
  let treestate ← expect (chain.treestate height)
    "The treestate must be present for the root height."
  let block ← expect (chain.blocks.lookup height) onlyCalledWhilePopulated
  let trees := treestate.noteCommitmentTrees
  let remaining := { chain with
    blocks := chain.blocks.erase height
    saplingSubtrees :=
      if trees.saplingSubtree.isSome then chain.saplingSubtrees.popFirst else chain.saplingSubtrees
    orchardSubtrees :=
      if trees.orchardSubtree.isSome then chain.orchardSubtrees.popFirst else chain.orchardSubtrees
    ironwoodSubtrees :=
      if trees.ironwoodSubtree.isSome then chain.ironwoodSubtrees.popFirst
      else chain.ironwoodSubtrees }
  let reverted ← remaining.revertChainWith settings .root block
  return ((block, treestate), reverted)

def popRoots : Nat → Chain History → Except ChainError (Chain History)
  | 0, chain => .ok chain
  | count + 1, chain => do
      let (_, remaining) ← chain.popRoot settings
      remaining.popRoots count

/-- Pop tips until the tip is the wanted block. Every pop removes a block and the last block
cannot be popped, so the number of blocks bounds the pops. -/
def forkLoop (forkTip : Hash) : Nat → Chain History → Except ChainError (Chain History)
  | fuel, chain =>
    match chain.tipHash with
    | none => .error (.panic onlyCalledWhilePopulated)
    | some hash =>
      if hash = forkTip then .ok chain
      else
        match fuel with
        | 0 => .error (.panic onlyCalledWhilePopulated)
        | fuel + 1 => do
            let popped ← chain.popTip settings
            popped.forkLoop forkTip fuel

def fork (forkTip : Hash) (chain : Chain History) : Except ChainError (Option (Chain History)) :=
  if (chain.index.heightByHash.lookup forkTip).isNone then .ok none
  else do
    let forked ← chain.forkLoop settings forkTip chain.blocks.keys.card
    return some forked

end Chain

end Zakura.NonFinalized
