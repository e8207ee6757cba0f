import Zakura.NonFinalized.Block
import Zakura.Lib.OrderedMap

/-!
Note commitment trees as the sequence of their leaves, the trees and anchors a chain
keeps by height, and the subtrees its blocks completed.
-/

namespace Zakura.NonFinalized

def ShieldedPool.name : ShieldedPool → String
  | .sprout => "sprout"
  | .sapling => "sapling"
  | .orchard => "orchard"
  | .ironwood => "ironwood"

def ShieldedPool.title : ShieldedPool → String
  | .sprout => "Sprout"
  | .sapling => "Sapling"
  | .orchard => "Orchard"
  | .ironwood => "Ironwood"

/-- The Merkle hashes of the pools, computed outside this source. -/
class CommitmentHasher where
  root : ShieldedPool → List NoteCommitment → Root
  subtreeRoot : ShieldedPool → List NoteCommitment → SubtreeRoot

structure NoteCommitmentTree where
  leaves : List NoteCommitment
deriving DecidableEq, Repr

def trackedSubtreeSize : Nat := 2 ^ 16

def maxLeaves : Nat := 2 ^ 32

def maxSproutLeaves : Nat := 2 ^ 29

structure NoteCommitmentSubtreeData where
  root : SubtreeRoot
  endHeight : Nat
deriving DecidableEq, Repr

structure NoteCommitmentSubtree where
  index : Nat
  data : NoteCommitmentSubtreeData
deriving DecidableEq, Repr

namespace NoteCommitmentTree

def size (tree : NoteCommitmentTree) : Nat :=
  tree.leaves.length

def root [CommitmentHasher] (pool : ShieldedPool) (tree : NoteCommitmentTree) : Root :=
  CommitmentHasher.root pool tree.leaves

def nextBoundary (size : Nat) : Nat :=
  (size / trackedSubtreeSize + 1) * trackedSubtreeSize

/-- Append one block's commitments, returning the index and root of the subtree they complete.
A batch that would complete two subtrees is refused with the same error as a full tree. -/
def appendBatch [CommitmentHasher] (pool : ShieldedPool) (batch : List NoteCommitment)
    (tree : NoteCommitmentTree) :
    Except NoteCommitmentTreeError (NoteCommitmentTree × Option (Nat × SubtreeRoot)) :=
  if batch = [] then .ok (tree, none)
  else if maxLeaves < tree.size + batch.length then .error .fullTree
  else if nextBoundary tree.size + trackedSubtreeSize ≤ tree.size + batch.length then
    .error .fullTree
  else
    let appended : NoteCommitmentTree := ⟨tree.leaves ++ batch⟩
    if nextBoundary tree.size ≤ tree.size + batch.length then
      let completed := (appended.leaves.take (nextBoundary tree.size)).drop
        (nextBoundary tree.size - trackedSubtreeSize)
      .ok (appended, some (nextBoundary tree.size / trackedSubtreeSize - 1,
        CommitmentHasher.subtreeRoot pool completed))
    else .ok (appended, none)

def append (commitment : NoteCommitment) (tree : NoteCommitmentTree) :
    Except NoteCommitmentTreeError NoteCommitmentTree :=
  if tree.size < maxSproutLeaves then .ok ⟨tree.leaves ++ [commitment]⟩ else .error .fullTree

def appendAll (commitments : List NoteCommitment) (tree : NoteCommitmentTree) :
    Except NoteCommitmentTreeError NoteCommitmentTree :=
  commitments.foldlM (fun current commitment => current.append commitment) tree

end NoteCommitmentTree

structure NoteCommitmentTrees where
  sprout : NoteCommitmentTree
  sapling : NoteCommitmentTree
  saplingSubtree : Option NoteCommitmentSubtree
  orchard : NoteCommitmentTree
  orchardSubtree : Option NoteCommitmentSubtree
  ironwood : NoteCommitmentTree
  ironwoodSubtree : Option NoteCommitmentSubtree
deriving DecidableEq, Repr

section

variable [CommitmentHasher]

/-- A pool's tree and subtree after a block: both stay as they were when the block has no
commitments of the pool. -/
def updatePoolTree (pool : ShieldedPool) (block : Block) (height : Nat)
    (current : NoteCommitmentTree × Option NoteCommitmentSubtree) :
    Except ChainError (NoteCommitmentTree × Option NoteCommitmentSubtree) :=
  if block.noteCommitments pool = [] then .ok current
  else do
    let (tree, completed) ← (current.1.appendBatch pool (block.noteCommitments pool)).mapError
      (.noteCommitmentTree pool)
    return (tree, completed.map fun entry => ⟨entry.1, ⟨entry.2, height⟩⟩)

def updateSproutTree (block : Block) (tree : NoteCommitmentTree) :
    Except ChainError NoteCommitmentTree :=
  if block.noteCommitments .sprout = [] then .ok tree
  else (tree.appendAll (block.noteCommitments .sprout)).mapError (.noteCommitmentTree .sprout)

def NoteCommitmentTrees.updateTreesParallel (block : Block) (trees : NoteCommitmentTrees) :
    Except ChainError NoteCommitmentTrees := do
  let height ← expect block.coinbaseHeight "height was already validated"
  let sprout ← updateSproutTree block trees.sprout
  let sapling ← updatePoolTree .sapling block height (trees.sapling, trees.saplingSubtree)
  let orchard ← updatePoolTree .orchard block height (trees.orchard, trees.orchardSubtree)
  let ironwood ← updatePoolTree .ironwood block height (trees.ironwood, trees.ironwoodSubtree)
  return {
    sprout := sprout
    sapling := sapling.1
    saplingSubtree := sapling.2
    orchard := orchard.1
    orchardSubtree := orchard.2
    ironwood := ironwood.1
    ironwoodSubtree := ironwood.2 }

end

/-- The revert position in a chain: a finalized root, or the tip above a fork. -/
inductive RevertPosition
  | root
  | tip
deriving DecidableEq, Repr

/-- One pool's trees and anchors by height. Only the first of equal trees is stored. -/
structure TreeIndex where
  treesByHeight : FiniteMap Nat NoteCommitmentTree
  anchorsByHeight : FiniteMap Nat Root
  anchors : Multiset Root
deriving DecidableEq

namespace TreeIndex

def empty : TreeIndex where
  treesByHeight := ∅
  anchorsByHeight := ∅
  anchors := 0

def treeAt (height : Nat) (index : TreeIndex) : Option NoteCommitmentTree :=
  index.treesByHeight.floor height

def treeForTip (index : TreeIndex) : Option NoteCommitmentTree :=
  index.treesByHeight.lastValue

/-- The first of equal trees: nothing below, or a tree with another root. -/
def isNewTree [CommitmentHasher] (pool : ShieldedPool) (height : Nat) (tree : NoteCommitmentTree)
    (index : TreeIndex) : Bool :=
  height = 0 ∨ (index.treeAt (height - 1)).all fun previous => previous.root pool ≠ tree.root pool

def addTreeAndAnchor [CommitmentHasher] (pool : ShieldedPool) (height : Nat)
    (tree : NoteCommitmentTree) (index : TreeIndex) : Except ChainError TreeIndex :=
  let isNew := index.isNewTree pool height tree
  if isNew ∧ (index.treesByHeight.lookup height).isSome then
    .error (.panic
      ("incorrect overwrite of " ++ pool.name ++ " tree: trees must be reverted then inserted"))
  else if (index.anchorsByHeight.lookup height).isSome then
    .error (.panic
      ("incorrect overwrite of " ++ pool.name ++ " anchor: anchors must be reverted then inserted"))
  else
    .ok {
      treesByHeight :=
        if isNew then index.treesByHeight.insert height tree else index.treesByHeight
      anchorsByHeight := index.anchorsByHeight.insert height (tree.root pool)
      anchors := tree.root pool ::ₘ index.anchors }

def missingAnchorMessage (pool : ShieldedPool) : String :=
  pool.title ++ " anchor must be present if block was added to chain"

def removeHeight (pool : ShieldedPool) (height : Nat) (index : TreeIndex) :
    Except ChainError (Root × TreeIndex) :=
  match index.anchorsByHeight.lookup height with
  | none => .error (.panic (missingAnchorMessage pool))
  | some anchor =>
    if anchor ∈ index.anchors then
      .ok (anchor, {
        treesByHeight := index.treesByHeight.erase height
        anchorsByHeight := index.anchorsByHeight.erase height
        anchors := index.anchors.erase anchor })
    else .error (.panic (missingAnchorMessage pool))

/-- The heights removed with a block: all at or below a root, only its own at the tip. -/
def removedHeights (position : RevertPosition) (height : Nat) (index : TreeIndex) : List Nat :=
  match position with
  | .root => FiniteMap.ascending (index.anchorsByHeight.keys.filter (· ≤ height))
  | .tip => [height]

/-- The tree that stands for the removed ones, read before a root is removed. -/
def highestRemovedTree (position : RevertPosition) (height : Nat) (index : TreeIndex) :
    Option NoteCommitmentTree :=
  match position with
  | .root => index.treeAt height
  | .tip => none

/-- Below a remaining tip, the height after the removed ones must have its own tree. -/
def restoreNext (tipHeight : Option Nat) (height : Nat) (removed : Option NoteCommitmentTree)
    (index : TreeIndex) : Except ChainError TreeIndex :=
  if tipHeight.any (height < ·) ∧ (index.treesByHeight.lookup (height + 1)).isNone then
    do
      let tree ← expect removed "There should be a cached removed tree."
      return { index with treesByHeight := index.treesByHeight.insert (height + 1) tree }
  else .ok index

/-- Remove the trees and anchors of a reverted block; `tipHeight` is the remaining tip. -/
def removeTreeAndAnchor (pool : ShieldedPool) (position : RevertPosition)
    (tipHeight : Option Nat) (height : Nat) (index : TreeIndex) : Except ChainError TreeIndex := do
  let cleared ← (index.removedHeights position height).foldlM
    (fun current removed => return (← current.removeHeight pool removed).2) index
  cleared.restoreNext tipHeight height (index.highestRemovedTree position height)

end TreeIndex

/-- The Sprout trees are also kept by anchor, for the anchors that are present. -/
structure SproutIndex where
  index : TreeIndex
  treesByAnchor : FiniteMap Root NoteCommitmentTree
deriving DecidableEq

namespace SproutIndex

def empty : SproutIndex where
  index := .empty
  treesByAnchor := ∅

def addTreeAndAnchor [CommitmentHasher] (height : Nat) (tree : NoteCommitmentTree)
    (sprout : SproutIndex) : Except ChainError SproutIndex := do
  let index ← sprout.index.addTreeAndAnchor .sprout height tree
  return {
    index := index
    treesByAnchor := sprout.treesByAnchor.insert (tree.root .sprout) tree }

/-- Remove one height; the tree of the anchor goes with the anchor's last occurrence. -/
def removeHeight (height : Nat) (sprout : SproutIndex) : Except ChainError SproutIndex := do
  let (anchor, index) ← sprout.index.removeHeight .sprout height
  return {
    index := index
    treesByAnchor :=
      if anchor ∈ index.anchors then sprout.treesByAnchor else sprout.treesByAnchor.erase anchor }

def removeTreeAndAnchor (position : RevertPosition) (tipHeight : Option Nat) (height : Nat)
    (sprout : SproutIndex) : Except ChainError SproutIndex := do
  let cleared ← (sprout.index.removedHeights position height).foldlM
    (fun current removed => current.removeHeight removed) sprout
  let index ← cleared.index.restoreNext tipHeight height
    (sprout.index.highestRemovedTree position height)
  return { cleared with index := index }

end SproutIndex

abbrev Subtrees := FiniteMap Nat NoteCommitmentSubtreeData

namespace Subtrees

def completedAt (height : Nat) (subtrees : Subtrees) : Option NoteCommitmentSubtree :=
  (FiniteMap.ascending subtrees.keys).findSome? fun index =>
    match subtrees.lookup index with
    | some data => if data.endHeight = height then some ⟨index, data⟩ else none
    | none => none

def addCompleted (subtree : Option NoteCommitmentSubtree) (subtrees : Subtrees) : Subtrees :=
  match subtree with
  | none => subtrees
  | some subtree => subtrees.insert subtree.index subtree.data

def popFirst (subtrees : Subtrees) : Subtrees :=
  match FiniteMap.firstKey subtrees with
  | none => subtrees
  | some index => subtrees.erase index

def popLastAt (height : Nat) (subtrees : Subtrees) : Subtrees :=
  match FiniteMap.lastKey subtrees with
  | none => subtrees
  | some index =>
    if (subtrees.lookup index).any (·.endHeight = height) then subtrees.erase index else subtrees

end Subtrees

end Zakura.NonFinalized
