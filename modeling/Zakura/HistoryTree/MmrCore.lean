import Zakura.Lib.Checked
import Zakura.Lib.FiniteMap

/-!
The partially loaded, array-backed Merkle mountain range tree: stored nodes by their
position, generated nodes that connect the peaks, and the append of one leaf.
-/

namespace Zakura.HistoryTree

variable {Data : Type}

/-- A version of the chain history tree. Combining two nodes fails when they are of different
consensus branches or a total leaves its range. -/
structure Version (Data : Type) where
  Encoded : Type
  consensusBranchId : Data → Nat
  startHeight : Data → Nat
  endHeight : Data → Nat
  combine : Data → Data → Option Data
  write : Data → Encoded
  read : Nat → Encoded → Option Data
  combine_branchId : ∀ left right both, combine left right = some both →
    consensusBranchId both = consensusBranchId left
  combine_startHeight : ∀ left right both, combine left right = some both →
    startHeight both = startHeight left
  combine_endHeight : ∀ left right both, combine left right = some both →
    endHeight both = endHeight right
  read_write : ∀ data, read (consensusBranchId data) (write data) = some data

inductive EntryLink
  | stored (index : Nat)
  | generated (index : Nat)
deriving DecidableEq

inductive EntryKind
  | leaf
  | node (left right : EntryLink)
deriving DecidableEq

inductive MmrError
  | expectedInMemory (link : EntryLink)
  | expectedNode (link : EntryLink)
  | heightUnderflow
  | indexOverflow
  | combineFailed
  | noPeaks
  | emptyStack
  | outOfFuel
deriving DecidableEq

structure Entry (Data : Type) where
  kind : EntryKind
  data : Data
deriving DecidableEq

def u32Limit : Nat := 2 ^ 32

def isPowerOfTwo (count : Nat) : Bool := count == 2 ^ count.log2

namespace Entry

variable (version : Version Data)

def newLeaf (data : Data) : Entry Data := ⟨.leaf, data⟩

def leafCount (entry : Entry Data) : Except MmrError Nat :=
  match Checked.sub (version.startHeight entry.data) 1 with
  | none => .error .heightUnderflow
  | some before =>
    match Checked.sub (version.endHeight entry.data) before with
    | none => .error .heightUnderflow
    | some count => .ok count

def complete (entry : Entry Data) : Except MmrError Bool := do
  let count ← entry.leafCount version
  return isPowerOfTwo count

def children (link : EntryLink) (entry : Entry Data) : Except MmrError (EntryLink × EntryLink) :=
  match entry.kind with
  | .leaf => .error (.expectedNode link)
  | .node left right => .ok (left, right)

end Entry

structure MmrTree (Data : Type) where
  stored : FiniteMap Nat (Entry Data)
  generated : List (Entry Data)
  storedCount : Nat
  root : EntryLink

namespace MmrTree

variable (version : Version Data)

def resolveLink (link : EntryLink) (tree : MmrTree Data) : Except MmrError (Entry Data) :=
  match link with
  | .generated index =>
    match tree.generated[index]? with
    | some entry => .ok entry
    | none => .error (.expectedInMemory link)
  | .stored index =>
    match tree.stored.lookup index with
    | some entry => .ok entry
    | none => .error (.expectedInMemory link)

def push (entry : Entry Data) (tree : MmrTree Data) : Except MmrError (EntryLink × MmrTree Data) :=
  if tree.storedCount + 1 < u32Limit then
    .ok (.stored tree.storedCount, { tree with
      stored := tree.stored.insert tree.storedCount entry
      storedCount := tree.storedCount + 1 })
  else .error .indexOverflow

def pushGenerated (entry : Entry Data) (tree : MmrTree Data) :
    Except MmrError (EntryLink × MmrTree Data) :=
  if tree.generated.length < u32Limit then
    .ok (.generated tree.generated.length, { tree with generated := tree.generated ++ [entry] })
  else .error .indexOverflow

def combineNodes (left right : EntryLink) (tree : MmrTree Data) : Except MmrError (Entry Data) := do
  let leftEntry ← tree.resolveLink left
  let rightEntry ← tree.resolveLink right
  match version.combine leftEntry.data rightEntry.data with
  | some data => return ⟨.node left right, data⟩
  | none => .error .combineFailed

def invalid (length : Nat) : MmrTree Data := ⟨∅, [], length, .generated 0⟩

def store (index : Nat) (entry : Entry Data) (tree : MmrTree Data) : MmrTree Data :=
  { tree with stored := tree.stored.insert index entry }

/-- Store the remaining peaks and connect them, left to right, to the root so far. -/
def connectPeaks : List (Nat × Entry Data) → EntryLink → MmrTree Data →
    Except MmrError (EntryLink × MmrTree Data)
  | [], root, tree => .ok (root, tree)
  | (index, entry) :: rest, root, tree => do
      let loaded := tree.store index entry
      let combined ← loaded.combineNodes version root (.stored index)
      let (link, next) ← loaded.pushGenerated combined
      connectPeaks rest link next

def new (length : Nat) (peaks : List (Nat × Entry Data)) : Except MmrError (MmrTree Data) :=
  match peaks with
  | [] => .error .noPeaks
  | (index, entry) :: rest => do
      let (root, tree) ← connectPeaks version rest (.stored index) ((invalid length).store index entry)
      return { tree with root := root }

def getPeaks : Nat → EntryLink → MmrTree Data → Except MmrError (List EntryLink)
  | 0, _, _ => .error .outOfFuel
  | fuel + 1, link, tree => do
      let entry ← tree.resolveLink link
      let isComplete ← entry.complete version
      if isComplete then return [link]
      else
        let (left, right) ← entry.children link
        let leftPeaks ← getPeaks fuel left tree
        let rightPeaks ← getPeaks fuel right tree
        return leftPeaks ++ rightPeaks

/-- Scan the peaks right to left, merging neighbours with equal leaf counts. The head of the stack
is its top. -/
def mergePeaks : List EntryLink → List EntryLink → List EntryLink → MmrTree Data →
    Except MmrError ((List EntryLink × List EntryLink) × MmrTree Data)
  | [], stack, appended, tree => .ok ((stack, appended), tree)
  | _ :: _, [], _, _ => .error .emptyStack
  | nextPeak :: peaks, nextMerge :: stack, appended, tree => do
      let peak ← tree.resolveLink nextPeak
      let merge ← tree.resolveLink nextMerge
      let peakCount ← peak.leafCount version
      let mergeCount ← merge.leafCount version
      if peakCount = mergeCount then
        let combined ← tree.combineNodes version nextPeak nextMerge
        let (link, next) ← tree.push combined
        mergePeaks peaks (link :: stack) (appended ++ [link]) next
      else mergePeaks peaks (nextPeak :: nextMerge :: stack) appended tree

def connectStack : List EntryLink → EntryLink → MmrTree Data →
    Except MmrError (EntryLink × MmrTree Data)
  | [], root, tree => .ok (root, tree)
  | child :: rest, root, tree => do
      let combined ← tree.combineNodes version root child
      let (link, next) ← tree.pushGenerated combined
      connectStack rest link next

def appendLeaf (leaf : Data) (tree : MmrTree Data) :
    Except MmrError (List EntryLink × MmrTree Data) := do
  let (leafLink, pushed) ← tree.push (.newLeaf leaf)
  let peaks ← pushed.getPeaks version (pushed.generated.length + 1) tree.root
  let ((stack, appended), merged) ← mergePeaks version peaks.reverse [leafLink] [leafLink] pushed
  match stack with
  | [] => .error .emptyStack
  | root :: rest => do
      let (newRoot, connected) ← connectStack version rest root merged
      return (appended, { connected with root := newRoot })

def rootNode (tree : MmrTree Data) : Except MmrError (Entry Data) := tree.resolveLink tree.root

end MmrTree

end Zakura.HistoryTree
