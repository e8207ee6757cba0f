import Zakura.HistoryTree.MmrAppend
import Zakura.HistoryTree.PeakPositions

/-!
The pruned history tree against the mountain range of all its blocks: what is stored, what
is rebuilt from it, and what pushing one block keeps.
-/

namespace Zakura.HistoryTree

open MountainRange FiniteMap Fallible List

variable {Data Parts : Type} {version : Version Data} {leaf : Nat → Data}
  {first upgrade branch count fewer : Nat} {whole : Data}

theorem Writable.write (version : Version Data) (entry : Entry Data) (isWritable : Writable entry) :
    ∃ stored, entry.write version = .ok stored ∧
      Entry.read version (version.consensusBranchId entry.data) stored = .ok entry := by
  obtain ⟨_, data⟩ := entry
  rcases isWritable with isLeaf | ⟨left, right, isNode⟩
  · cases isLeaf
    refine ⟨⟨.leaf, version.write data⟩, rfl, ?_⟩
    unfold Entry.read
    rw [version.read_write data]
  cases isNode
  refine ⟨⟨.node left right, version.write data⟩, rfl, ?_⟩
  unfold Entry.read
  rw [version.read_write data]

structure HoldsPeaks (version : Version Data) (leaf : Nat → Data) (branch count : Nat)
    (peaks : FiniteMap Nat (StoredEntry version)) : Prop where
  keys : peaks.keys = ((mountains count).map position).toFinset
  reads : ∀ mountain ∈ mountains count, ∃ entry,
    (∃ stored, peaks.lookup (position mountain) = some stored ∧
      Entry.read version branch stored = .ok entry) ∧
      perfect version.combine leaf mountain.1 mountain.2 = some entry.data

namespace NonEmptyHistoryTree

section

variable {peaks : FiniteMap Nat (StoredEntry version)}

theorem readPeaks_spec {range : List (Nat × Nat)} {entries : Nat × Nat → Entry Data}
    (reads : ∀ mountain ∈ range, ∃ stored, peaks.lookup (position mountain) = some stored ∧
      Entry.read version branch stored = .ok (entries mountain)) :
    readPeaks branch peaks (range.map position) =
      .ok (range.map fun mountain => (position mountain, entries mountain)) := by
  induction range with
  | nil => rfl
  | cons mountain rest ih =>
    obtain ⟨_, found, isRead⟩ := reads mountain (mem_cons_self ..)
    have later := ih fun other listed => reads other (mem_cons_of_mem _ listed)
    rw [map_cons, readPeaks, found]
    dsimp only
    rw [bind_of_ok isRead, bind_of_ok later]
    rfl

theorem newFromCache_spec (holds : HoldsPeaks version leaf branch count peaks)
    (isRoot : root version.combine leaf count = some whole) (room : count < u32Limit) :
    ∃ inner, newFromCache (some branch) (nodeCount count) peaks = .ok inner ∧
      Loads version leaf count inner whole := by
  have : Nonempty (Entry Data) := ⟨⟨.leaf, whole⟩⟩
  choose! entries reads using holds.reads
  obtain ⟨inner, isNew, loads⟩ := new_spec entries (fun mountain listed => (reads mountain listed).2)
    isRoot room
  have isRead := readPeaks_spec fun mountain listed => (reads mountain listed).1
  refine ⟨inner, ?_, loads⟩
  unfold newFromCache
  dsimp only
  rw [holds.keys, ascending_of_pairwise (pairwise_position (isRange_mountains count)),
    bind_of_ok isRead, isNew]
  rfl

end

structure Inserted (inner : MmrTree Data) (count : Nat) (tree next : NonEmptyHistoryTree version) :
    Prop where
  networkUpgrade : next.networkUpgrade = tree.networkUpgrade
  size : next.size = tree.size + count
  before : ∀ index < tree.size, next.peaks.lookup index = tree.peaks.lookup index
  inserted : ∀ index, tree.size ≤ index → index < tree.size + count → ∃ entry stored,
    inner.stored.lookup index = some entry ∧ entry.write version = .ok stored ∧
      next.peaks.lookup index = some stored

theorem insertEntries_spec (inner : MmrTree Data) (count : Nat) (tree : NonEmptyHistoryTree version)
    (room : tree.size + count < u32Limit)
    (persisted : ∀ index, tree.size ≤ index → index < tree.size + count →
      ∃ entry, inner.stored.lookup index = some entry ∧ Writable entry) :
    ∃ next, insertEntries ((List.range' tree.size count).map EntryLink.stored) inner tree = .ok next ∧
      Inserted inner count tree next := by
  induction count generalizing tree with
  | zero =>
    refine ⟨tree, rfl, rfl, rfl, fun _ _ => rfl, fun index outside inside => ?_⟩
    omega
  | succ count ih =>
    obtain ⟨entry, found, isWritable⟩ := persisted tree.size (Nat.le_refl _) (by omega)
    obtain ⟨stored, isWritten, _⟩ := isWritable.write version _
    have resolved : (inner.resolveLink (.stored tree.size)).mapError HistoryTreeError.inner =
        .ok entry := by
      rw [resolveLink_stored found]
      rfl
    have sized : add32 tree.size 1 = .ok (tree.size + 1) := if_pos (by omega)
    obtain ⟨next, continued, spec⟩ := ih
      { tree with peaks := tree.peaks.insert tree.size stored, size := tree.size + 1 }
      (by dsimp only; omega)
      (fun index outside inside => persisted index (by dsimp only at outside; omega)
        (by dsimp only at inside; omega))
    have others : ∀ index, index ≠ tree.size →
        (tree.peaks.insert tree.size stored).lookup index = tree.peaks.lookup index := by
      intro index differs
      rw [lookup_insert_ite, if_neg differs]
    refine ⟨next, ?_, spec.networkUpgrade, ?_, ?_, ?_⟩
    · rw [range'_succ, map_cons, insertEntries, bind_of_ok resolved,
        bind_of_ok isWritten, bind_of_ok sized]
      exact continued
    · have size := spec.size
      dsimp only at size
      omega
    · intro index smaller
      exact (spec.before index (by dsimp only; omega)).trans (others index (by omega))
    intro index outside inside
    rcases Nat.eq_or_lt_of_le outside with rfl | further
    · refine ⟨entry, stored, found, isWritten, ?_⟩
      rw [spec.before _ (Nat.lt_succ_self _), lookup_insert_ite, if_pos rfl]
    · exact spec.inserted index further (by dsimp only; omega)

section

variable (network : Network version Parts) (blocks : Nat → Parts)

def leafAt (index : Nat) : Data := network.leaf (blocks index)

/-- The first blocks are at consecutive heights of one network upgrade with a history tree. -/
structure OneUpgrade (first upgrade branch count : Nat) : Prop where
  positive : 1 ≤ first
  height : ∀ index < count, network.height (blocks index) = first + index
  sameUpgrade : ∀ index < count, network.upgradeAt (first + index) = upgrade
  heartwood : network.heartwood upgrade = true
  branchId : network.branchId upgrade = some branch

/-- A tree that holds what the tree over the first blocks holds, pruned to the peaks. -/
structure Represents (first upgrade branch count : Nat) (tree : NonEmptyHistoryTree version)
    (whole : Data) : Prop where
  networkUpgrade : tree.networkUpgrade = upgrade
  size : tree.size = nodeCount count
  currentHeight : tree.currentHeight + 1 = first + count
  holds : HoldsPeaks version (leafAt network blocks) branch count tree.peaks
  cached : newFromCache (some branch) tree.size tree.peaks = .ok tree.inner
  loads : Loads version (leafAt network blocks) count tree.inner whole

variable {network blocks} {tree next : NonEmptyHistoryTree version}

theorem OneUpgrade.consecutive (one : OneUpgrade network blocks first upgrade branch count) :
    Consecutive version (leafAt network blocks) first branch count := by
  refine ⟨one.positive, fun index inside => ?_, fun index inside => ?_, fun index inside => ?_⟩
  · exact (network.leaf_startHeight _).trans (one.height index inside)
  · exact (network.leaf_endHeight _).trans (one.height index inside)
  · refine network.leaf_branchId _ branch ?_
    rw [one.height index inside, one.sameUpgrade index inside, one.branchId]

theorem OneUpgrade.count_le (one : OneUpgrade network blocks first upgrade branch (count + 1)) :
    count + 1 ≤ maxHeight := by
  have last := one.height count (Nat.lt_succ_self _)
  have bounded := network.height_le (blocks count)
  have positive := one.positive
  omega

theorem OneUpgrade.mono (one : OneUpgrade network blocks first upgrade branch count)
    (shorter : fewer ≤ count) : OneUpgrade network blocks first upgrade branch fewer :=
  { one with
    height := fun index inside => one.height index (inside.trans_le shorter)
    sameUpgrade := fun index inside => one.sameUpgrade index (inside.trans_le shorter) }

theorem holdsPeaks_retain {inner : MmrTree Data}
    (inserted : Inserted inner (nodeCount (count + 1) - nodeCount count) tree next)
    (leaves : Consecutive version leaf first branch (count + 1))
    (holds : HoldsPeaks version leaf branch count tree.peaks) (size : tree.size = nodeCount count)
    (appended : Appended version leaf count inner whole) :
    HoldsPeaks version leaf branch (count + 1) (next.peaks.retain fun index _ =>
      ((mountains (count + 1)).map position).contains index) := by
  have reads : ∀ mountain ∈ mountains (count + 1), ∃ entry,
      (∃ stored, next.peaks.lookup (position mountain) = some stored ∧
        Entry.read version branch stored = .ok entry) ∧
        perfect version.combine leaf mountain.1 mountain.2 = some entry.data := by
    intro mountain listed
    have inside := position_lt (isRange_mountains (count + 1)) listed
    by_cases old : position mountain < nodeCount count
    · have isOld := (mem_mountains_succ listed).resolve_right (Nat.not_le.mpr old)
      obtain ⟨entry, ⟨stored, found, isRead⟩, isPeak⟩ := holds.reads mountain isOld
      exact ⟨entry, ⟨stored, (inserted.before _ (size ▸ old)).trans found, isRead⟩, isPeak⟩
    obtain ⟨entry, stored, isStored, isWritten, found⟩ :=
      inserted.inserted (position mountain) (by omega) (by omega)
    obtain ⟨_, isOther, isPeak⟩ := appended.stores mountain listed
    obtain rfl := Option.mem_unique isStored isOther
    obtain ⟨_, again, isWritable⟩ := appended.persisted (position mountain) (by omega) inside
    obtain rfl := Option.mem_unique isStored again
    obtain ⟨_, encodes, isRead⟩ := isWritable.write version _
    obtain rfl := Except.ok.inj (isWritten.symm.trans encodes)
    have covers := leaves.perfect ((isRange_mountains (count + 1)).within listed) isPeak
    rw [covers.branchId] at isRead
    exact ⟨entry, ⟨stored, found, isRead⟩, isPeak⟩
  have kept : ∀ index stored, (next.peaks.retain fun index _ =>
      ((mountains (count + 1)).map position).contains index).lookup index = some stored ↔
        next.peaks.lookup index = some stored ∧ index ∈ (mountains (count + 1)).map position := by
    intro index stored
    rw [lookup_retain_eq_some, contains_iff_mem]
  refine ⟨?_, fun mountain listed => ?_⟩
  · ext index
    rw [mem_keys_iff, mem_toFinset]
    constructor
    · intro present
      obtain ⟨stored, found⟩ := present
      exact ((kept index stored).mp found).2
    intro listed
    obtain ⟨mountain, isMountain, rfl⟩ := mem_map.mp listed
    obtain ⟨entry, ⟨stored, found, _⟩, _⟩ := reads mountain isMountain
    exact ⟨stored, (kept _ _).mpr ⟨found, listed⟩⟩
  · obtain ⟨entry, ⟨stored, found, isRead⟩, isPeak⟩ := reads mountain listed
    exact ⟨entry, ⟨stored, (kept _ _).mpr ⟨found, mem_map_of_mem listed⟩, isRead⟩, isPeak⟩

theorem fromParts_spec (one : OneUpgrade network blocks first upgrade branch 1) :
    ∃ tree, fromParts network (blocks 0) = .ok tree ∧
      Represents network blocks first upgrade branch 1 tree (leafAt network blocks 0) := by
  have height := one.height 0 Nat.one_pos
  have isUpgrade : network.upgradeAt (network.height (blocks 0)) = upgrade :=
    (congrArg _ height).trans (one.sameUpgrade 0 Nat.one_pos)
  have isBranch := one.consecutive.branchId 0 Nat.one_pos
  obtain ⟨stored, isWritten, isRead⟩ :=
    Writable.write version (.newLeaf (network.leaf (blocks 0))) (.inl rfl)
  have holds : HoldsPeaks version (leafAt network blocks) branch 1 (Finmap.insert 0 stored ∅) := by
    refine ⟨?_, fun mountain listed => ?_⟩
    · rw [keys_insert]
      rfl
    · obtain rfl := mem_singleton.mp listed
      refine ⟨.newLeaf (leafAt network blocks 0), ⟨stored, ?_, isBranch ▸ isRead⟩, rfl⟩
      exact Finmap.lookup_insert _
  obtain ⟨inner, cached, loads⟩ := newFromCache_spec holds
    (show root version.combine (leafAt network blocks) 1 = some (leafAt network blocks 0) from rfl)
    (by decide)
  refine ⟨⟨upgrade, inner, 1, Finmap.insert 0 stored ∅, first⟩, ?_, rfl, rfl, rfl, holds, cached, loads⟩
  unfold fromParts
  dsimp only
  rw [isUpgrade, if_neg (by simp [one.heartwood]), if_neg (by simp [one.branchId]), one.branchId,
    bind_of_ok isWritten]
  refine (bind_of_ok cached).trans ?_
  rw [height]
  rfl

section

variable (one : OneUpgrade network blocks first upgrade branch (count + 1))
include one

theorem pushFromParts_spec
    (represents : Represents network blocks first upgrade branch count tree whole) :
    (tree.pushFromParts network (blocks count) = .error (.inner .combineFailed) ∧
      root version.combine (leafAt network blocks) (count + 1) = none) ∨
    ∃ next newWhole, tree.pushFromParts network (blocks count) = .ok next ∧
      root version.combine (leafAt network blocks) (count + 1) = some newWhole ∧
      Represents network blocks first upgrade branch (count + 1) next newWhole := by
  have bounded := one.count_le
  have limits : 2 * (count + 1) < u32Limit := by
    unfold maxHeight at bounded
    unfold u32Limit
    omega
  have height := one.height count (Nat.lt_succ_self _)
  have isNext : network.height (blocks count) = tree.currentHeight + 1 :=
    height.trans represents.currentHeight.symm
  have isUpgrade : network.upgradeAt (network.height (blocks count)) = tree.networkUpgrade := by
    rw [height, one.sameUpgrade count (Nat.lt_succ_self _), represents.networkUpgrade]
  have grows := nodeCount_lt_succ count
  have nodes : nodeCount (count + 1) < u32Limit := (Nat.sub_le _ _).trans_lt limits
  unfold pushFromParts
  rw [if_neg (by simp [isNext]), if_neg (by simp [isUpgrade])]
  rcases appendLeaf_spec one.consecutive represents.loads limits with
    ⟨failed, undefined⟩ | ⟨inner, newWhole, isAppended, isRoot, appended⟩
  · have failed : tree.inner.appendLeaf version (network.leaf (blocks count)) = _ := failed
    refine .inl ⟨?_, undefined⟩
    rw [failed]
    rfl
  have isAppended : tree.inner.appendLeaf version (network.leaf (blocks count)) = _ := isAppended
  have size := represents.size
  obtain ⟨next, isInserted, inserted⟩ := insertEntries_spec inner
    (nodeCount (count + 1) - nodeCount count) { tree with inner := inner }
    (by dsimp only; omega)
    (fun index outside inside => appended.persisted index (size ▸ outside)
      (by dsimp only at inside; omega))
  have holds := holdsPeaks_retain inserted one.consecutive represents.holds size appended
  have nextSize : next.size = nodeCount (count + 1) := by
    have grown := inserted.size
    dsimp only at grown
    omega
  obtain ⟨pruned, cached, loads⟩ := newFromCache_spec holds isRoot (by omega)
  have isUpgraded : network.branchId next.networkUpgrade = some branch := by
    rw [inserted.networkUpgrade]
    rw [represents.networkUpgrade, one.branchId]
  have positions := allPeakPositions_spec (Nat.le_add_left 1 count) bounded
  have isPruned : next.prune network = .ok { next with
      peaks := next.peaks.retain fun index _ =>
        ((mountains (count + 1)).map position).contains index
      inner := pruned } := by
    unfold prune
    rw [nextSize, bind_of_ok positions]
    rw [isUpgraded, bind_of_ok cached]
    rfl
  have links : insertEntries ((range' (nodeCount count)
      (nodeCount (count + 1) - nodeCount count)).map EntryLink.stored) inner
        { tree with inner := inner } = .ok next := size ▸ isInserted
  refine .inr ⟨⟨next.networkUpgrade, pruned, next.size, next.peaks.retain fun index _ =>
    ((mountains (count + 1)).map position).contains index, network.height (blocks count)⟩,
    newWhole, ?_, isRoot, ⟨?_, nextSize, ?_, holds, ?_, loads⟩⟩
  · rw [isAppended]
    change (do
      let extended ← insertEntries _ inner { tree with inner := inner }
      let pruned ← extended.prune network
      return { pruned with currentHeight := network.height (blocks count) }) = _
    rw [bind_of_ok links, bind_of_ok isPruned]
    rfl
  · exact inserted.networkUpgrade.trans represents.networkUpgrade
  · rw [height, Nat.add_assoc]
  · rw [nextSize, cached]

theorem Represents.fromCache_eq
    (represents : Represents network blocks first upgrade branch (count + 1) tree whole) :
    fromCache network tree.size tree.peaks tree.currentHeight = .ok tree := by
  have isHeight : tree.currentHeight = first + count := by
    have height := represents.currentHeight
    omega
  have isUpgrade : network.upgradeAt tree.currentHeight = upgrade :=
    (congrArg _ isHeight).trans (one.sameUpgrade count (Nat.lt_succ_self _))
  have present : tree.peaks.keys ≠ ∅ := by
    obtain ⟨_, _, range⟩ := mountains_pos (Nat.succ_pos count)
    rw [represents.holds.keys, range]
    exact Finset.ne_empty_of_mem (mem_toFinset.mpr (mem_cons_self ..))
  unfold fromCache
  rw [isUpgrade, if_neg present, if_neg (by simp [one.heartwood]), if_neg (by simp [one.branchId]),
    one.branchId, bind_of_ok represents.cached, ← represents.networkUpgrade]
  rfl

end

end

end NonEmptyHistoryTree

end Zakura.HistoryTree
