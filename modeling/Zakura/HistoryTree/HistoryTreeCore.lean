import Zakura.HistoryTree.MmrCore

/-!
The history tree of one network upgrade: the stored peaks, the tree that is rebuilt from
them after every block, and the pruning that keeps only the peaks.
-/

namespace Zakura.HistoryTree

variable {Parts Data : Type} (version : Version Data)

inductive StoredKind
  | leaf
  | node (left right : Nat)
deriving DecidableEq

structure StoredEntry (version : Version Data) where
  kind : StoredKind
  data : version.Encoded

inductive HistoryTreeError
  | inner (error : MmrError)
  | invalidCachedTree (reason : String)
  | missingBranchId
  | unreadableEntry
  | unwritableEntry
  | wrongHeight
  | beforeHeartwood
  | arithmetic
  | outOfFuel
deriving DecidableEq

def Entry.write (entry : Entry Data) : Except HistoryTreeError (StoredEntry version) :=
  match entry.kind with
  | .node (.stored left) (.stored right) => .ok ⟨.node left right, version.write entry.data⟩
  | .leaf => .ok ⟨.leaf, version.write entry.data⟩
  | .node (.generated _) _ | .node (.stored _) (.generated _) => .error .unwritableEntry

def Entry.read (branchId : Nat) (stored : StoredEntry version) :
    Except HistoryTreeError (Entry Data) :=
  match version.read branchId stored.data with
  | none => .error .unreadableEntry
  | some data =>
    match stored.kind with
    | .leaf => .ok ⟨.leaf, data⟩
    | .node left right => .ok ⟨.node (.stored left) (.stored right), data⟩

def maxHeight : Nat := 2 ^ 31 - 1

/-- The network parameters the tree reads, and the leaf that a block adds. -/
structure Network (version : Version Data) (Parts : Type) where
  upgradeAt : Nat → Nat
  branchId : Nat → Option Nat
  heartwood : Nat → Bool
  height : Parts → Nat
  leaf : Parts → Data
  height_le : ∀ parts, height parts ≤ maxHeight
  leaf_startHeight : ∀ parts, version.startHeight (leaf parts) = height parts
  leaf_endHeight : ∀ parts, version.endHeight (leaf parts) = height parts
  leaf_branchId : ∀ parts branch, branchId (upgradeAt (height parts)) = some branch →
    version.consensusBranchId (leaf parts) = branch

structure NonEmptyHistoryTree (version : Version Data) where
  networkUpgrade : Nat
  inner : MmrTree Data
  size : Nat
  peaks : FiniteMap Nat (StoredEntry version)
  currentHeight : Nat

namespace NonEmptyHistoryTree

variable {version}

def readPeaks (branchId : Nat) (peaks : FiniteMap Nat (StoredEntry version)) :
    List Nat → Except HistoryTreeError (List (Nat × Entry Data))
  | [] => .ok []
  | index :: rest =>
    match peaks.lookup index with
    | none => readPeaks branchId peaks rest
    | some stored => do
        let entry ← Entry.read version branchId stored
        let entries ← readPeaks branchId peaks rest
        return (index, entry) :: entries

def newFromCache (branchId : Option Nat) (length : Nat)
    (peaks : FiniteMap Nat (StoredEntry version)) : Except HistoryTreeError (MmrTree Data) :=
  match branchId with
  | none => .error .missingBranchId
  | some branchId => do
      let entries ← readPeaks branchId peaks (FiniteMap.ascending peaks.keys)
      (MmrTree.new version length entries).mapError .inner

def fromCache (network : Network version Parts) (size : Nat)
    (peaks : FiniteMap Nat (StoredEntry version)) (currentHeight : Nat) :
    Except HistoryTreeError (NonEmptyHistoryTree version) :=
  let upgrade := network.upgradeAt currentHeight
  if peaks.keys = ∅ then
    .error (.invalidCachedTree "a non-empty history tree must have at least one peak")
  else if network.heartwood upgrade = false then
    .error (.invalidCachedTree "history trees do not exist before Heartwood")
  else if network.branchId upgrade = none then .error .missingBranchId
  else do
    let inner ← newFromCache (network.branchId upgrade) size peaks
    return ⟨upgrade, inner, size, peaks, currentHeight⟩

def fromParts (network : Network version Parts) (parts : Parts) :
    Except HistoryTreeError (NonEmptyHistoryTree version) :=
  let height := network.height parts
  let upgrade := network.upgradeAt height
  if network.heartwood upgrade = false then .error .beforeHeartwood
  else if network.branchId upgrade = none then .error .missingBranchId
  else do
    let entry ← (Entry.newLeaf (network.leaf parts)).write version
    let peaks : FiniteMap Nat (StoredEntry version) := Finmap.insert 0 entry ∅
    let inner ← newFromCache (network.branchId upgrade) 1 peaks
    return ⟨upgrade, inner, 1, peaks, height⟩

def add32 (first second : Nat) : Except HistoryTreeError Nat :=
  if first + second < u32Limit then .ok (first + second) else .error .arithmetic

def sub32 (first second : Nat) : Except HistoryTreeError Nat :=
  if second ≤ first then .ok (first - second) else .error .arithmetic

def leadingZeros (value : Nat) : Nat := if value = 0 then 32 else 31 - value.log2

def dropLeft (size altitude position : Nat) : Except HistoryTreeError (Nat × Nat) :=
  if size ≤ position then do
    let left ← sub32 position (2 ^ altitude)
    let below ← sub32 altitude 1
    return (below, left)
  else .ok (altitude, position)

def takePeak (size altitude position : Nat) (found : List Nat) :
    Except HistoryTreeError (Nat × List Nat) :=
  if position < size then do
    let beyond ← add32 position (2 ^ (altitude + 1))
    let sibling ← sub32 beyond 1
    return (sibling, found ++ [position])
  else .ok (position, found)

def peakPositions (size : Nat) : Nat → Nat → Nat → List Nat → Except HistoryTreeError (List Nat)
  | 0, _, _, _ => .error .outOfFuel
  | fuel + 1, altitude, position, found => do
      let (below, left) ← dropLeft size altitude position
      let (next, taken) ← takePeak size below left found
      if below = 0 then return taken
      else peakPositions size fuel below next taken

/-- The positions of the peaks of a tree with the given number of nodes. -/
def allPeakPositions (size : Nat) : Except HistoryTreeError (List Nat) := do
  let next ← add32 size 1
  let bits ← sub32 (32 - leadingZeros next) 1
  let altitude ← sub32 bits 1
  let position ← sub32 (2 ^ (altitude + 1)) 2
  peakPositions size 64 altitude position []

def prune (network : Network version Parts) (tree : NonEmptyHistoryTree version) :
    Except HistoryTreeError (NonEmptyHistoryTree version) := do
  let positions ← allPeakPositions tree.size
  let peaks := tree.peaks.retain fun position _ => positions.contains position
  let inner ← newFromCache (network.branchId tree.networkUpgrade) tree.size peaks
  return { tree with peaks := peaks, inner := inner }

def insertEntries : List EntryLink → MmrTree Data → NonEmptyHistoryTree version →
    Except HistoryTreeError (NonEmptyHistoryTree version)
  | [], _, tree => .ok tree
  | link :: rest, inner, tree => do
      let entry ← (inner.resolveLink link).mapError .inner
      let stored ← entry.write version
      let size ← add32 tree.size 1
      insertEntries rest inner { tree with peaks := tree.peaks.insert tree.size stored, size := size }

def pushFromParts (network : Network version Parts) (parts : Parts)
    (tree : NonEmptyHistoryTree version) :
    Except HistoryTreeError (NonEmptyHistoryTree version) :=
  let height := network.height parts
  if height ≠ tree.currentHeight + 1 then .error .wrongHeight
  else if network.upgradeAt height ≠ tree.networkUpgrade then fromParts network parts
  else do
    let (links, inner) ← (tree.inner.appendLeaf version (network.leaf parts)).mapError .inner
    let extended ← insertEntries links inner { tree with inner := inner }
    let pruned ← extended.prune network
    return { pruned with currentHeight := height }

/-- A tree with the first block, to which the following ones are pushed. -/
def pushAll (network : Network version Parts) (blocks : Nat → Parts) :
    Nat → Except HistoryTreeError (NonEmptyHistoryTree version)
  | 0 => fromParts network (blocks 0)
  | count + 1 => do
      let tree ← pushAll network blocks count
      tree.pushFromParts network (blocks (count + 1))

end NonEmptyHistoryTree

end Zakura.HistoryTree
