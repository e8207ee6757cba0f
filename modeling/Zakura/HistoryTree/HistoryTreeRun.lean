import Zakura.HistoryTree.HistoryTreeRefinement
import Zakura.HistoryTree.NodeData

/-!
Pushing block after block gives the tree over all blocks, and what is stored of it restores
it.
-/

namespace Zakura.HistoryTree

open MountainRange

namespace NonEmptyHistoryTree

variable {Data Parts : Type} {version : Version Data} {network : Network version Parts}
  {blocks : Nat → Parts} {first upgrade branch count : Nat}

theorem pushAll_spec (one : OneUpgrade network blocks first upgrade branch (count + 1)) :
    (pushAll network blocks count = .error (.inner .combineFailed) ∧
      ∃ index ≤ count, root version.combine (leafAt network blocks) (index + 1) = none) ∨
    ∃ tree whole, pushAll network blocks count = .ok tree ∧
      root version.combine (leafAt network blocks) (count + 1) = some whole ∧
      Represents network blocks first upgrade branch (count + 1) tree whole := by
  induction count with
  | zero =>
    obtain ⟨tree, created, represents⟩ := fromParts_spec one
    exact .inr ⟨tree, _, created, rfl, represents⟩
  | succ count ih =>
    rcases ih (one.mono (Nat.le_succ _)) with
      ⟨failed, index, earlier, undefined⟩ | ⟨tree, whole, pushed, _, represents⟩
    · refine .inl ⟨?_, index, earlier.trans (Nat.le_succ _), undefined⟩
      rw [pushAll, failed]
      rfl
    rw [pushAll, Fallible.bind_of_ok pushed]
    rcases pushFromParts_spec one represents with ⟨failed, undefined⟩ | extended
    · exact .inl ⟨failed, count + 1, Nat.le_refl _, undefined⟩
    · exact .inr extended

/-- Pushing blocks at consecutive heights of one network upgrade, each to a tree that is rebuilt from
its peaks, gives the tree over all blocks: its root data, its size and its peaks. Only combining can
fail, and only if some root over the first blocks does not exist. What is stored restores the tree. -/
theorem pushAll_is_full_tree (one : OneUpgrade network blocks first upgrade branch (count + 1)) :
    (pushAll network blocks count = .error (.inner .combineFailed) ∧
      ∃ index ≤ count, root version.combine (leafAt network blocks) (index + 1) = none) ∨
    ∃ tree whole, pushAll network blocks count = .ok tree ∧
      root version.combine (leafAt network blocks) (count + 1) = some whole ∧
      (∃ entry, tree.inner.rootNode = .ok entry ∧ entry.data = whole) ∧
      tree.size = 2 * (count + 1) - popcount (count + 1) ∧
      tree.peaks.keys = ((mountains (count + 1)).map position).toFinset ∧
      allPeakPositions tree.size = .ok ((mountains (count + 1)).map position) ∧
      fromCache network tree.size tree.peaks tree.currentHeight = .ok tree := by
  rcases pushAll_spec one with failed | ⟨tree, whole, pushed, isRoot, represents⟩
  · exact .inl failed
  refine .inr ⟨tree, whole, pushed, isRoot, represents.loads.bagged.resolve, represents.size,
    represents.holds.keys, ?_, represents.fromCache_eq one⟩
  rw [represents.size]
  exact allPeakPositions_spec (Nat.le_add_left 1 count) one.count_le

end NonEmptyHistoryTree

namespace Sample

def upgrades : Upgrades := ⟨fun _ => 5, fun _ => some 0xc2d6d0b4, fun upgrade => upgrade = 5⟩

def hash : NodeHash := fun branchId bytes => branchId.setWidth 256 + BitVec.ofNat 256 bytes.length

def parts (index : Nat) : HistoryTreeBlockParts where
  height := Fin.ofNat _ (index + 1)
  hash := BitVec.ofNat 256 (1000 + index)
  time := BitVec.ofNat 32 (75 * index)
  target := 0x1f07ffff
  work := 8192
  saplingRoot := BitVec.ofNat 256 (2000 + index)
  orchardRoot := BitVec.ofNat 256 (3000 + index)
  ironwoodRoot := 0
  saplingTx := BitVec.ofNat 64 index
  orchardTx := 1
  ironwoodTx := 0

theorem parts_oneUpgrade : NonEmptyHistoryTree.OneUpgrade (networkV2 upgrades hash) parts 1 5
    0xc2d6d0b4 7 := by
  refine ⟨Nat.le_refl _, ?_, fun _ _ => rfl, rfl, rfl⟩
  intro index inside
  have small : index + 1 < maxHeight + 1 := by
    unfold maxHeight
    omega
  exact (Nat.mod_eq_of_lt small).trans (Nat.add_comm _ _)

theorem roots_exist : ∀ index ≤ 6,
    (root (v2 hash).combine (NonEmptyHistoryTree.leafAt (networkV2 upgrades hash) parts)
      (index + 1)).isSome = true := by
  decide +kernel

theorem pushAll_is_full_tree_of_seven :
    NonEmptyHistoryTree.OneUpgrade (networkV2 upgrades hash) parts 1 5 0xc2d6d0b4 7 ∧
    ∃ tree whole, NonEmptyHistoryTree.pushAll (networkV2 upgrades hash) parts 6 = .ok tree ∧
      root (v2 hash).combine (NonEmptyHistoryTree.leafAt (networkV2 upgrades hash) parts) 7 =
        some whole ∧
      (∃ entry, tree.inner.rootNode = .ok entry ∧ entry.data = whole) ∧ tree.size = 11 ∧
      tree.peaks.keys = {6, 9, 10} := by
  refine ⟨parts_oneUpgrade, ?_⟩
  rcases NonEmptyHistoryTree.pushAll_is_full_tree parts_oneUpgrade with
    ⟨_, index, inside, undefined⟩ | ⟨tree, whole, pushed, isRoot, isData, size, keys, _⟩
  · have exists_root := roots_exist index inside
    rw [undefined] at exists_root
    cases exists_root
  · exact ⟨tree, whole, pushed, isRoot, isData, size.trans (by decide), keys.trans (by decide)⟩

end Sample

end Zakura.HistoryTree
