import Zakura.Lib.ByteCodec
import Zakura.HistoryTree.HistoryTreeCore

/-!
The three versions of the node metadata: how two nodes combine, how a node is written and
read, and the leaf of a block.
-/

namespace Zakura.HistoryTree

open ByteCodec Option

variable {subtreeCommitment : BitVec 256}

abbrev NodeHash := BitVec 32 → List UInt8 → BitVec 256

/-- The sum of two works, which panics on overflow. The transaction counts wrap. -/
def addU256 (left right : BitVec 256) : Option (BitVec 256) :=
  if left.toNat + right.toNat < 2 ^ 256 then some (left + right) else none

structure NodeData where
  consensusBranchId : BitVec 32
  subtreeCommitment : BitVec 256
  startTime : BitVec 32
  endTime : BitVec 32
  startTarget : BitVec 32
  endTarget : BitVec 32
  startSaplingRoot : BitVec 256
  endSaplingRoot : BitVec 256
  subtreeTotalWork : BitVec 256
  startHeight : BitVec 64
  endHeight : BitVec 64
  saplingTx : BitVec 64
deriving DecidableEq

namespace NodeData

def combineInner (subtreeCommitment : BitVec 256) (left right : NodeData) : Option NodeData := do
  let work ← addU256 left.subtreeTotalWork right.subtreeTotalWork
  return {
    consensusBranchId := left.consensusBranchId
    subtreeCommitment
    startTime := left.startTime
    endTime := right.endTime
    startTarget := left.startTarget
    endTarget := right.endTarget
    startSaplingRoot := left.startSaplingRoot
    endSaplingRoot := right.endSaplingRoot
    subtreeTotalWork := work
    startHeight := left.startHeight
    endHeight := right.endHeight
    saplingTx := left.saplingTx + right.saplingTx }

structure Joins (left right both : NodeData) : Prop where
  branchId : both.consensusBranchId = left.consensusBranchId
  startHeight : both.startHeight = left.startHeight
  endHeight : both.endHeight = right.endHeight

theorem joins_combineInner {left right both : NodeData}
    (combined : combineInner subtreeCommitment left right = some both) : Joins left right both := by
  obtain ⟨_, _, combined⟩ := bind_eq_some_iff.mp combined
  obtain rfl := some.inj combined
  exact ⟨rfl, rfl, rfl⟩

abbrev Fields := BitVec 256 × BitVec 32 × BitVec 32 × BitVec 32 × BitVec 32 × BitVec 256 ×
  BitVec 256 × BitVec 256 × BitVec 64 × BitVec 64 × BitVec 64

def fields (data : NodeData) : Fields :=
  (data.subtreeCommitment, data.startTime, data.endTime, data.startTarget, data.endTarget,
    data.startSaplingRoot, data.endSaplingRoot, data.subtreeTotalWork, data.startHeight,
    data.endHeight, data.saplingTx)

def ofFields (consensusBranchId : BitVec 32) : Fields → NodeData
  | (subtreeCommitment, startTime, endTime, startTarget, endTarget, startSaplingRoot,
      endSaplingRoot, subtreeTotalWork, startHeight, endHeight, saplingTx) =>
    { consensusBranchId, subtreeCommitment, startTime, endTime, startTarget, endTarget,
      startSaplingRoot, endSaplingRoot, subtreeTotalWork, startHeight, endHeight, saplingTx }

def codec : Codec Fields :=
  (Codec.word 32).pair <| (Codec.word 4).pair <| (Codec.word 4).pair <| (Codec.word 4).pair <|
    (Codec.word 4).pair <| (Codec.word 32).pair <| (Codec.word 32).pair <| (Codec.word 32).pair <|
      Codec.compact.pair <| Codec.compact.pair Codec.compact

end NodeData

structure NodeDataV2 where
  v1 : NodeData
  startOrchardRoot : BitVec 256
  endOrchardRoot : BitVec 256
  orchardTx : BitVec 64
deriving DecidableEq

namespace NodeDataV2

def combineInner (subtreeCommitment : BitVec 256) (left right : NodeDataV2) :
    Option NodeDataV2 := do
  let v1 ← NodeData.combineInner subtreeCommitment left.v1 right.v1
  return ⟨v1, left.startOrchardRoot, right.endOrchardRoot, left.orchardTx + right.orchardTx⟩

theorem joins_combineInner {left right both : NodeDataV2}
    (combined : combineInner subtreeCommitment left right = some both) :
    NodeData.Joins left.v1 right.v1 both.v1 := by
  obtain ⟨_, isV1, combined⟩ := bind_eq_some_iff.mp combined
  obtain rfl := some.inj combined
  exact NodeData.joins_combineInner isV1

abbrev Fields := NodeData.Fields × BitVec 256 × BitVec 256 × BitVec 64

def fields (data : NodeDataV2) : Fields :=
  (data.v1.fields, data.startOrchardRoot, data.endOrchardRoot, data.orchardTx)

def ofFields (consensusBranchId : BitVec 32) : Fields → NodeDataV2
  | (v1, startOrchardRoot, endOrchardRoot, orchardTx) =>
    ⟨NodeData.ofFields consensusBranchId v1, startOrchardRoot, endOrchardRoot, orchardTx⟩

def codec : Codec Fields :=
  NodeData.codec.pair <| (Codec.word 32).pair <| (Codec.word 32).pair Codec.compact

end NodeDataV2

structure NodeDataV3 where
  v2 : NodeDataV2
  startIronwoodRoot : BitVec 256
  endIronwoodRoot : BitVec 256
  ironwoodTx : BitVec 64
deriving DecidableEq

namespace NodeDataV3

def combineInner (subtreeCommitment : BitVec 256) (left right : NodeDataV3) :
    Option NodeDataV3 := do
  let v2 ← NodeDataV2.combineInner subtreeCommitment left.v2 right.v2
  return ⟨v2, left.startIronwoodRoot, right.endIronwoodRoot, left.ironwoodTx + right.ironwoodTx⟩

theorem joins_combineInner {left right both : NodeDataV3}
    (combined : combineInner subtreeCommitment left right = some both) :
    NodeData.Joins left.v2.v1 right.v2.v1 both.v2.v1 := by
  obtain ⟨_, isV2, combined⟩ := bind_eq_some_iff.mp combined
  obtain rfl := some.inj combined
  exact NodeDataV2.joins_combineInner isV2

abbrev Fields := NodeDataV2.Fields × BitVec 256 × BitVec 256 × BitVec 64

def fields (data : NodeDataV3) : Fields :=
  (data.v2.fields, data.startIronwoodRoot, data.endIronwoodRoot, data.ironwoodTx)

def ofFields (consensusBranchId : BitVec 32) : Fields → NodeDataV3
  | (v2, startIronwoodRoot, endIronwoodRoot, ironwoodTx) =>
    ⟨NodeDataV2.ofFields consensusBranchId v2, startIronwoodRoot, endIronwoodRoot, ironwoodTx⟩

def codec : Codec Fields :=
  NodeDataV2.codec.pair <| (Codec.word 32).pair <| (Codec.word 32).pair Codec.compact

end NodeDataV3

def combineNodeData {Data : Type} (hash : NodeHash) (branchId : Data → BitVec 32)
    (write : Data → List UInt8) (combineInner : BitVec 256 → Data → Data → Option Data)
    (left right : Data) : Option Data :=
  if branchId left = branchId right then
    combineInner (hash (branchId left) (write left ++ write right)) left right
  else none

theorem combineNodeData_eq_some {Data : Type} {hash : NodeHash} {branchId : Data → BitVec 32}
    {write : Data → List UInt8} {combineInner : BitVec 256 → Data → Data → Option Data}
    {left right both : Data}
    (combined : combineNodeData hash branchId write combineInner left right = some both) :
    ∃ subtreeCommitment, combineInner subtreeCommitment left right = some both := by
  unfold combineNodeData at combined
  split at combined
  · exact ⟨_, combined⟩
  · cases combined

def nodeVersion {Data Fields : Type} (hash : NodeHash) (base : Data → NodeData)
    (combineInner : BitVec 256 → Data → Data → Option Data) (codec : Codec Fields)
    (fields : Data → Fields) (ofFields : BitVec 32 → Fields → Data)
    (joins : ∀ commitment left right both, combineInner commitment left right = some both →
      NodeData.Joins (base left) (base right) (base both))
    (ofFields_fields : ∀ data, ofFields (base data).consensusBranchId (fields data) = data) :
    Version Data where
  Encoded := List UInt8
  consensusBranchId data := (base data).consensusBranchId.toNat
  startHeight data := (base data).startHeight.toNat
  endHeight data := (base data).endHeight.toNat
  combine := combineNodeData hash (fun data => (base data).consensusBranchId)
    (fun data => codec.write (fields data)) combineInner
  write data := codec.write (fields data)
  read branchId bytes :=
    (codec.read bytes).map fun found => ofFields (BitVec.ofNat 32 branchId) found.1
  combine_branchId left right both combined := by
    obtain ⟨commitment, combined⟩ := combineNodeData_eq_some combined
    rw [(joins commitment left right both combined).branchId]
  combine_startHeight left right both combined := by
    obtain ⟨commitment, combined⟩ := combineNodeData_eq_some combined
    rw [(joins commitment left right both combined).startHeight]
  combine_endHeight left right both combined := by
    obtain ⟨commitment, combined⟩ := combineNodeData_eq_some combined
    rw [(joins commitment left right both combined).endHeight]
  read_write data := by
    have isRead := codec.read_write (fields data) []
    rw [List.append_nil] at isRead
    rw [isRead, Option.map_some, BitVec.ofNat_toNat, BitVec.setWidth_eq, ofFields_fields]

def v1 (hash : NodeHash) : Version NodeData :=
  nodeVersion hash id NodeData.combineInner NodeData.codec NodeData.fields NodeData.ofFields
    (fun _ _ _ _ => NodeData.joins_combineInner) fun _ => rfl

def v2 (hash : NodeHash) : Version NodeDataV2 :=
  nodeVersion hash NodeDataV2.v1 NodeDataV2.combineInner NodeDataV2.codec NodeDataV2.fields
    NodeDataV2.ofFields (fun _ _ _ _ => NodeDataV2.joins_combineInner) fun _ => rfl

def v3 (hash : NodeHash) : Version NodeDataV3 :=
  nodeVersion hash (fun data => data.v2.v1) NodeDataV3.combineInner NodeDataV3.codec
    NodeDataV3.fields NodeDataV3.ofFields (fun _ _ _ _ => NodeDataV3.joins_combineInner) fun _ => rfl

section

structure HistoryTreeBlockParts where
  height : Fin (maxHeight + 1)
  hash : BitVec 256
  time : BitVec 32
  target : BitVec 32
  work : BitVec 256
  saplingRoot : BitVec 256
  orchardRoot : BitVec 256
  ironwoodRoot : BitVec 256
  saplingTx : BitVec 64
  orchardTx : BitVec 64
  ironwoodTx : BitVec 64

/-- The upgrade of a height, the branch of an upgrade, and the upgrades with a history tree. -/
structure Upgrades where
  current : Nat → Nat
  branchId : Nat → Option (BitVec 32)
  heartwood : Nat → Bool

variable (upgrades : Upgrades) (parts : HistoryTreeBlockParts)

def partsToNodeV1 : NodeData where
  consensusBranchId := (upgrades.branchId (upgrades.current parts.height)).getD 0
  subtreeCommitment := parts.hash
  startTime := parts.time
  endTime := parts.time
  startTarget := parts.target
  endTarget := parts.target
  startSaplingRoot := parts.saplingRoot
  endSaplingRoot := parts.saplingRoot
  subtreeTotalWork := parts.work
  startHeight := BitVec.ofNat 64 parts.height
  endHeight := BitVec.ofNat 64 parts.height
  saplingTx := parts.saplingTx

def partsToNodeV2 : NodeDataV2 :=
  ⟨partsToNodeV1 upgrades parts, parts.orchardRoot, parts.orchardRoot, parts.orchardTx⟩

def partsToNodeV3 : NodeDataV3 :=
  ⟨partsToNodeV2 upgrades parts, parts.ironwoodRoot, parts.ironwoodRoot, parts.ironwoodTx⟩

theorem toNat_height : (BitVec.ofNat 64 (parts.height : Nat)).toNat = parts.height := by
  have bounded := parts.height.isLt
  unfold maxHeight at bounded
  rw [BitVec.toNat_ofNat, Nat.mod_eq_of_lt (by omega)]

theorem branchId_partsToNodeV1 {branch : Nat}
    (isBranch : (upgrades.branchId (upgrades.current parts.height)).map BitVec.toNat = some branch) :
    (partsToNodeV1 upgrades parts).consensusBranchId.toNat = branch := by
  obtain ⟨_, isWord, rfl⟩ := map_eq_some_iff.mp isBranch
  unfold partsToNodeV1
  rw [isWord]
  rfl

def nodeNetwork {Data Fields : Type} (hash : NodeHash) (base : Data → NodeData)
    (combineInner : BitVec 256 → Data → Data → Option Data) (codec : Codec Fields)
    (fields : Data → Fields) (ofFields : BitVec 32 → Fields → Data)
    (joins : ∀ commitment left right both, combineInner commitment left right = some both →
      NodeData.Joins (base left) (base right) (base both))
    (ofFields_fields : ∀ data, ofFields (base data).consensusBranchId (fields data) = data)
    (leaf : HistoryTreeBlockParts → Data)
    (isLeaf : ∀ parts, base (leaf parts) = partsToNodeV1 upgrades parts) :
    Network (nodeVersion hash base combineInner codec fields ofFields joins ofFields_fields)
      HistoryTreeBlockParts where
  upgradeAt := upgrades.current
  branchId upgrade := (upgrades.branchId upgrade).map BitVec.toNat
  heartwood := upgrades.heartwood
  height parts := parts.height
  leaf := leaf
  height_le parts := Nat.le_of_lt_succ parts.height.isLt
  leaf_startHeight parts := by
    change (base (leaf parts)).startHeight.toNat = _
    rw [isLeaf]
    exact toNat_height parts
  leaf_endHeight parts := by
    change (base (leaf parts)).endHeight.toNat = _
    rw [isLeaf]
    exact toNat_height parts
  leaf_branchId parts branch isBranch := by
    change (base (leaf parts)).consensusBranchId.toNat = _
    rw [isLeaf]
    exact branchId_partsToNodeV1 upgrades parts isBranch

def networkV1 (hash : NodeHash) : Network (v1 hash) HistoryTreeBlockParts :=
  nodeNetwork upgrades hash _ _ _ _ _ _ _ (partsToNodeV1 upgrades) fun _ => rfl

def networkV2 (hash : NodeHash) : Network (v2 hash) HistoryTreeBlockParts :=
  nodeNetwork upgrades hash _ _ _ _ _ _ _ (partsToNodeV2 upgrades) fun _ => rfl

def networkV3 (hash : NodeHash) : Network (v3 hash) HistoryTreeBlockParts :=
  nodeNetwork upgrades hash _ _ _ _ _ _ _ (partsToNodeV3 upgrades) fun _ => rfl

end

end Zakura.HistoryTree
