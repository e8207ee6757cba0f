import Zakura.HeaderChain.Recovery
import Zakura.HeaderChain.StoreRun

/-!
Reconstruction of a live store: which stores reached by mutations are accepted
from their own rows, and that the accepted ones come back unchanged.
-/

namespace Zakura.HeaderChain

open FiniteMap HeaderGraphReconstruction MemHeaderStore HeaderGraphView List

namespace MemHeaderStore

section

variable [HeaderHasher] {store result : MemHeaderStore} {hash : Hash} {finalized : Frontier}
  {header : Header} {node old parent : HeaderNode}

structure Recorded (store : MemHeaderStore) : Prop where
  headers : ∀ {hash node}, store.nodes.lookup hash = some node →
    node.header.hash = hash ∧ node.header.previousBlockHash = node.parentHash
  works : ∀ {hash node}, store.nodes.lookup hash = some node →
    hash ≠ store.finalizedFrontier.hash →
      node.header.difficultyThreshold.toWork = some node.blockWork
  keyed : ∀ {hash row}, store.consensusInvalidBodyTombstones.lookup hash = some row →
    row.hash = hash
  verdicts : ∀ {hash node row}, store.nodes.lookup hash = some node →
    store.consensusInvalidBodyTombstones.lookup hash = some row →
      node.bodyValidationState = row.bodyState

/-- Every row of the result keeps the header data of a row that was there, or is the root. -/
structure KeepsHeaders (store result : MemHeaderStore) : Prop where
  finalized : result.finalizedFrontier = store.finalizedFrontier
  rows : ∀ {hash node}, result.nodes.lookup hash = some node →
    ∃ old, store.nodes.lookup hash = some old ∧ node.header = old.header ∧
      node.parentHash = old.parentHash ∧ node.blockWork = old.blockWork

theorem KeepsHeaders.recorded (kept : store.KeepsHeaders result) (recorded : store.Recorded)
    (keyed : ∀ {hash row}, result.consensusInvalidBodyTombstones.lookup hash = some row →
      row.hash = hash) (verdicts : ∀ {hash node row}, result.nodes.lookup hash = some node →
      result.consensusInvalidBodyTombstones.lookup hash = some row →
        node.bodyValidationState = row.bodyState) : result.Recorded where
  headers := by
    intro hash node found
    obtain ⟨old, oldFound, header, parent, _⟩ := kept.rows found
    rw [header, parent]
    exact recorded.headers oldFound
  works := by
    intro hash node found notRoot
    obtain ⟨old, oldFound, header, _, work⟩ := kept.rows found
    rw [header, work]
    exact recorded.works oldFound (kept.finalized ▸ notRoot)
  keyed := keyed
  verdicts := verdicts

omit [HeaderHasher] in
theorem keepsHeaders_of_edit (finalized : result.finalizedFrontier = store.finalizedFrontier)
    (rewrite : store.view.RowRewrite hash old node)
    (direct : SameDirect result.nodes.lookup (store.view.putRow hash node).find) :
    store.KeepsHeaders result where
  finalized := finalized
  rows := by
    intro query row found
    have rows := direct.sameRows.trans rewrite.sameRows
    obtain ⟨source, sourceFound, same⟩ := rows.find found
    exact ⟨source, sourceFound, same.header, same.parentHash, same.blockWork⟩

section

variable (recorded : store.Recorded)
include recorded

theorem Recorded.row (edited : store.RowEdited result hash node)
    (rewrite : store.view.RowRewrite hash old node)
    (body : node.bodyValidationState = old.bodyValidationState) : result.Recorded := by
  apply (keepsHeaders_of_edit edited.frame.finalized rewrite edited.direct).recorded recorded
  · rw [edited.frame.tombstones]
    exact recorded.keyed
  intro query row tombstone found verdict
  rw [edited.frame.tombstones] at verdict
  obtain ⟨_, sourceFound, _, same⟩ := rewrite.row_of_body body edited.direct found
  rw [same]
  exact recorded.verdicts sourceFound verdict

theorem Recorded.body {body : BodyValidationState} (found : store.nodes.lookup hash = some old)
    (undecided : store.consensusInvalidBodyTombstones.lookup hash = none)
    (edited : store.BodyEdited result hash (old.withBody body)) : result.Recorded := by
  have rewrite : store.view.RowRewrite hash old (old.withBody body) := ⟨found, rfl, rfl⟩
  have tombstones (query : Hash) : result.consensusInvalidBodyTombstones.lookup query =
      if query = hash ∧ (body.tombstone hash old.height).isSome then
        body.tombstone hash old.height
      else store.consensusInvalidBodyTombstones.lookup query := by
    rw [edited.tombstones]
    exact lookup_recordTombstone _ _ _ _ _
  apply (keepsHeaders_of_edit edited.finalized rewrite edited.direct).recorded recorded
  · intro query row verdict
    rw [tombstones] at verdict
    split at verdict
    next recordedHere =>
      rw [recordedHere.1]
      exact (tombstone_eq_some verdict).2.2.2
    · exact recorded.keyed verdict
  intro query row tombstone rowFound verdict
  rw [tombstones] at verdict
  obtain ⟨_, sourceFound, _, same⟩ := rewrite.row edited.direct rowFound
  rw [same]
  split
  next atHash =>
    rw [atHash] at verdict
    split at verdict
    · exact (tombstone_eq_some verdict).2.2.1.symm
    · simp [undecided] at verdict
  next elsewhere =>
    rw [if_neg fun recordedHere => elsewhere recordedHere.1] at verdict
    exact recorded.verdicts sourceFound verdict

theorem Recorded.coordinated (moved : store.Coordinated result) : result.Recorded := by
  have kept : store.KeepsHeaders result := by
    refine ⟨moved.frame.finalized, fun {hash node} found => ?_⟩
    obtain ⟨old, oldFound, same⟩ := moved.rows.row found
    rw [same]
    exact ⟨old, oldFound, rfl, rfl, rfl⟩
  apply kept.recorded recorded
  · rw [moved.frame.tombstones]
    exact recorded.keyed
  intro hash node row found verdict
  rw [moved.frame.tombstones] at verdict
  obtain ⟨old, oldFound, same⟩ := moved.rows.row found
  have carried := recorded.verdicts oldFound verdict
  rw [same]
  exact carried

theorem Recorded.attached {validation : HeaderValidationState}
    {directReasons : List EligibilityReason} {body : BodyValidationState}
    (inserted : store.Inserted result header validation directReasons body node parent) :
    result.Recorded := by
  obtain ⟨_, rfl⟩ := inserted.attached
  have cases {hash : Hash} {row : HeaderNode}
      (found : (store.attach node).nodes.lookup hash = some row) :
      hash = node.hash ∧ row = node ∨ store.nodes.lookup hash = some row := by
    simp only [attach, lookup_insert_ite] at found
    split at found
    · exact .inl ⟨by assumption, (Option.some.inj found).symm⟩
    · exact .inr found
  constructor
  · intro hash row found
    rcases cases found with ⟨rfl, rfl⟩ | old
    · rw [inserted.ofHeader, inserted.hash, inserted.parentHash]
      exact ⟨rfl, rfl⟩
    · exact recorded.headers old
  · intro hash row found notRoot
    rcases cases found with ⟨rfl, rfl⟩ | old
    · rw [inserted.ofHeader]
      exact inserted.work
    · exact recorded.works old notRoot
  · exact recorded.keyed
  intro hash row tombstone found verdict
  rcases cases found with ⟨rfl, rfl⟩ | old
  · have recordedVerdict : store.consensusInvalidBodyTombstones.lookup header.hash =
        some tombstone := inserted.hash ▸ verdict
    rw [inserted.verdict, recordedVerdict]
    rfl
  · exact recorded.verdicts old verdict

theorem Recorded.advanced (valid : store.RepresentationInvariant)
    (found : store.nodes.lookup finalized.hash = some node)
    (advance : store.FinalityAdvanced result finalized) : result.Recorded := by
  have live {hash : Hash} {row : ConsensusInvalidBodyTombstone}
      (verdict : result.consensusInvalidBodyTombstones.lookup hash = some row) :
      store.consensusInvalidBodyTombstones.lookup hash = some row := by
    rw [advance.tombstones, lookup_retain_eq_some] at verdict
    exact verdict.1
  constructor
  · exact fun rowFound => recorded.headers ((advance.find _ _).mp rowFound).2
  · intro hash row rowFound notRoot
    obtain ⟨descends, oldFound⟩ := (advance.find _ _).mp rowFound
    apply recorded.works oldFound
    -- the old root is retained only when finality did not move
    rintro rfl
    have shaped := valid.coherent.toShaped
    obtain ⟨_, same⟩ := shaped.descends_height descends found oldFound
    have rootHeight := shaped.root_height oldFound
    have rootLowest := shaped.root_le found
    rw [advance.root] at notRoot
    exact notRoot (same (by omega)).symm
  · exact fun verdict => recorded.keyed (live verdict)
  · intro hash row tombstone rowFound verdict
    exact recorded.verdicts ((advance.find _ _).mp rowFound).2 (live verdict)

theorem Recorded.leaf (removed : store.LeafRemoved result hash) : result.Recorded := by
  have kept : store.KeepsHeaders result := by
    refine ⟨removed.finalized, fun {query node} found => ?_⟩
    exact ⟨node, ((removed.find _ _).mp found).2, rfl, rfl, rfl⟩
  apply kept.recorded recorded
  · rw [removed.tombstones]
    exact recorded.keyed
  · intro query node row found verdict
    rw [removed.tombstones] at verdict
    exact recorded.verdicts ((removed.find _ _).mp found).2 verdict

end

theorem Stepped.recorded (stepped : store.Stepped result)
    (valid : store.RepresentationInvariant) (recorded : store.Recorded) : result.Recorded := by
  cases stepped with
  | unchanged => exact recorded
  | row edited rewrite body => exact recorded.row edited rewrite body
  | body found undecided edited => exact recorded.body found undecided edited
  | coordinated moved => exact recorded.coordinated moved
  | attached moved inserted => exact (recorded.coordinated moved).attached inserted
  | advanced found advance => exact recorded.advanced valid found advance
  | leaf _ _ removed => exact recorded.leaf removed

theorem run_recorded (valid : store.RepresentationInvariant) (recorded : store.Recorded)
    (mutations : List StoreMutation) (keepsRoot : store.RunKeepsRoot mutations) :
    (store.run mutations).Recorded := by
  induction mutations generalizing store with
  | nil => exact recorded
  | cons mutation rest ih =>
    have stepped := applyMutation_stepped valid mutation keepsRoot.1
    exact ih (stepped.invariant valid) (stepped.recorded valid recorded) keepsRoot.2

theorem new_recorded {blockWork cumulativeWork : Nat}
    (created : new finalized header blockWork cumulativeWork = .ok store) : store.Recorded := by
  unfold new at created
  split at created
  · simp at created
  rename_i hashed
  obtain rfl := Except.ok.inj created
  constructor
  · intro hash node found
    obtain ⟨rfl, rfl⟩ := rootedAt_only found
    exact ⟨not_not.mp hashed, rfl⟩
  · intro hash node found notRoot
    exact absurd (rootedAt_only found).1 notRoot
  · intro hash row verdict
    simp [rootedAt] at verdict
  · intro hash node row found verdict
    simp [rootedAt] at verdict

end

section

variable [HeaderHasher] {store rebuilt : MemHeaderStore} {durable : HeaderGraphReconstruction}

structure Saves (store : MemHeaderStore) (durable : HeaderGraphReconstruction) : Prop where
  finalized : durable.finalizedFrontier = store.finalizedFrontier
  rows : (durable.headerNodes.map HeaderNode.directRow).Perm
    (store.nodes.values.map HeaderNode.directRow)
  tombstones : durable.consensusInvalidBodyTombstones.Perm
    store.consensusInvalidBodyTombstones.values

structure Recoverable (store : MemHeaderStore) : Prop where
  rootWork : ∀ {root}, store.nodes.lookup store.finalizedFrontier.hash = some root →
    root.header.difficultyThreshold.toWork = some root.blockWork
  rootEligible : ∀ {root}, store.nodes.lookup store.finalizedFrontier.hash = some root →
    root.isEligible = true
  verdicts : ∀ {hash node}, store.nodes.lookup hash = some node →
    VerdictAgrees node.bodyValidationState (store.consensusInvalidBodyTombstones.lookup hash)

section

variable (saves : store.Saves durable)
include saves

omit [HeaderHasher] in
theorem Saves.distinct (valid : store.RepresentationInvariant) :
    (durable.headerNodes.map HeaderNode.hash).Nodup := by
  have keys : (store.nodes.values.map HeaderNode.hash).Nodup :=
    nodup_values_map fun _ _ found => valid.coherent.keyed found
  have perm := saves.rows.map HeaderNode.hash
  rw [map_map, map_map] at perm
  exact perm.nodup_iff.mpr keys

omit [HeaderHasher] in
theorem Saves.nodeMap (valid : store.RepresentationInvariant) :
    SameDirect durable.nodeMap.lookup store.nodes.lookup := by
  have distinct := saves.distinct valid
  apply SameDirect.of_find
  · intro hash node found
    obtain ⟨member, rfl⟩ := (lookup_nodeMap distinct _ _).mp found
    obtain ⟨stored, listed, same⟩ :=
      mem_map.mp (saves.rows.subset (mem_map_of_mem member))
    obtain ⟨hash, storedFound⟩ := mem_values.mp listed
    rw [← (SameLinks.of_directRow same).hash, valid.coherent.keyed storedFound]
    exact ⟨stored, storedFound, same.symm⟩
  intro hash stored storedFound
  have listed : stored ∈ store.nodes.values := mem_values.mpr ⟨hash, storedFound⟩
  obtain ⟨node, member, same⟩ :=
    mem_map.mp (saves.rows.symm.subset (mem_map_of_mem listed))
  have key : node.hash = hash :=
    (SameLinks.of_directRow same).hash.trans (valid.coherent.keyed storedFound)
  exact ⟨node, (lookup_nodeMap distinct _ _).mpr ⟨member, key⟩⟩

theorem Saves.tombstonesDistinct (recorded : store.Recorded) :
    (durable.consensusInvalidBodyTombstones.map ConsensusInvalidBodyTombstone.hash).Nodup :=
  (saves.tombstones.map ConsensusInvalidBodyTombstone.hash).nodup_iff.mpr
    (nodup_values_map fun _ _ found => recorded.keyed found)

theorem Saves.tombstoneMap (recorded : store.Recorded) :
    durable.tombstoneMap = store.consensusInvalidBodyTombstones :=
  indexBy_values saves.tombstones fun _ _ found => recorded.keyed found

variable (valid : store.RepresentationInvariant) (recorded : store.Recorded)
include valid recorded

theorem Saves.verdictRows : SameDirect durable.verdictRows.lookup store.nodes.lookup := by
  intro hash
  have rows := saves.nodeMap valid hash
  simp only [HeaderGraphReconstruction.verdictRows, lookup_mapValues, saves.tombstoneMap recorded]
  cases verdict : store.consensusInvalidBodyTombstones.lookup hash with
  | none => simpa using rows
  | some row =>
    cases found : durable.nodeMap.lookup hash with
    | none => simpa [found] using rows
    | some node =>
      obtain ⟨_, storedFound, same⟩ := (saves.nodeMap valid).find found
      have carried : node.withBody row.bodyState = node := by
        rw [← recorded.verdicts storedFound verdict, ← HeaderNode.body_of_directRow same]
        rfl
      dsimp only
      rw [Option.map_some, carried, ← found]
      exact rows

theorem Saves.rowChecked (recoverable : store.Recoverable) {root node : HeaderNode}
    (rootFound : durable.nodeMap.lookup durable.finalizedFrontier.hash = some root)
    (member : node ∈ durable.headerNodes) : durable.RowChecked root.workCoordinate node := by
  have direct := saves.nodeMap valid
  have distinct := saves.distinct valid
  have found := (lookup_nodeMap distinct _ _).mpr ⟨member, rfl⟩
  obtain ⟨_, storedFound, sameDirect⟩ := direct.find found
  have same := SameImmutable.of_directRow sameDirect
  obtain ⟨_, anchorFound, sameRoot⟩ := direct.sameRows.find rootFound
  rw [saves.finalized] at anchorFound
  obtain ⟨canonicalHash, canonicalParent⟩ := recorded.headers storedFound
  refine ⟨?_, ?_, ?_, ?_, ?_, ?_⟩
  · rw [same.header, canonicalHash]
  · rw [same.header, same.parentHash, canonicalParent]
  · rw [same.header, same.blockWork]
    by_cases atRoot : node.hash = store.finalizedFrontier.hash
    · exact recoverable.rootWork (atRoot ▸ storedFound)
    · exact recorded.works storedFound atRoot
  · rw [same.workCoordinate, sameRoot.workCoordinate]
    exact (valid.coherent.coordinate_above_root anchorFound storedFound).1
  · intro notRoot
    rw [saves.finalized] at notRoot
    obtain ⟨parent, parentFound, successor⟩ := valid.coherent.parent storedFound notRoot
    obtain ⟨parentRow, parentRowFound, sameParent⟩ := direct.sameRows.symm.find parentFound
    refine ⟨parentRow, same.parentHash ▸ parentRowFound, ?_, ?_⟩
    · rw [← sameParent.height, same.height]
      have bound := valid.bounded _ _ storedFound notRoot
      exact Height.next_eq_some.mpr ⟨successor, successor ▸ bound⟩
    · rw [← sameParent.workCoordinate, same.blockWork, same.workCoordinate]
      exact valid.coherent.work storedFound notRoot parentFound
  intro invalid
  rw [saves.tombstoneMap recorded]
  have agrees := recoverable.verdicts storedFound
  have body := HeaderNode.body_of_directRow sameDirect
  cases verdict : store.consensusInvalidBodyTombstones.lookup node.hash with
  | none =>
    rw [verdict] at agrees
    rw [body, agrees] at invalid
    simp at invalid
  | some row =>
    rw [verdict] at agrees
    exact ⟨row, rfl, by rw [body, agrees]⟩

theorem Saves.checked (recoverable : store.Recoverable) : ∃ root, durable.Checked root := by
  obtain ⟨_, anchorFound, anchorHeight⟩ := valid.coherent.root
  obtain ⟨root, rootFound, same⟩ := (saves.nodeMap valid).sameRows.symm.find anchorFound
  have durableRoot : durable.nodeMap.lookup durable.finalizedFrontier.hash = some root := by
    rw [saves.finalized]
    exact rootFound
  refine ⟨root, saves.distinct valid, saves.tombstonesDistinct recorded, durableRoot, ?_, ?_⟩
  · rw [← same.height, anchorHeight, saves.finalized]
    rfl
  · exact fun node member => saves.rowChecked valid recorded recoverable durableRoot member

def restarted (store : MemHeaderStore) : MemHeaderStore :=
  { store.preferHeaderTip none with graphRevision := 0 }

theorem Saves.rebuilt_eq {root : HeaderNode} (checked : durable.Checked root) :
    durable.assembled.rebuildEligibleHeaderTips = store.restarted := by
  have rebuiltValid := assembled_invariant checked
  have direct : SameDirect durable.finalRows.lookup store.nodes.lookup :=
    finalRows_direct.trans (saves.verdictRows valid recorded)
  have coherent : store.restarted.view.Coherent :=
    ⟨{ valid.coherent with }, valid.coherent.work, valid.coherent.rootInherits,
      valid.coherent.inherits, valid.coherent.tips⟩
  have views : durable.assembled.rebuildEligibleHeaderTips.view = store.restarted.view :=
    rebuiltValid.coherent.view_eq coherent saves.finalized rfl direct
  have nodes : durable.assembled.rebuildEligibleHeaderTips.nodes = store.nodes :=
    Finmap.ext_lookup fun hash => congrFun (congrArg find views) hash
  have children : durable.assembled.rebuildEligibleHeaderTips.children = store.children :=
    rebuiltValid.childrenFull.ext valid.childrenFull
      fun hash => congrFun (congrArg childrenOf views) hash
  have heights : durable.assembled.rebuildEligibleHeaderTips.heights = store.heights :=
    rebuiltValid.heightsFull.ext valid.heightsFull
      fun height => congrFun (congrArg hashesAt views) height
  have tips : durable.assembled.rebuildEligibleHeaderTips.eligibleHeaderTips =
      store.eligibleHeaderTips := congrArg tips views
  have finalized := saves.finalized
  have tombstones := saves.tombstoneMap recorded
  rw [restarted, preferHeaderTip]
  rw [← nodes, ← children, ← heights, ← tips, ← finalized, ← tombstones]
  rfl

theorem Saves.recoverable (run : reconstruct durable = .ok rebuilt) : store.Recoverable := by
  obtain ⟨⟨root, checked⟩, ⟨_, finalFound, eligible⟩, _⟩ := reconstruct_eq_ok.mp run
  have row {hash : Hash} {stored : HeaderNode} (found : store.nodes.lookup hash = some stored) :
      ∃ node, node.directRow = stored.directRow ∧ node.hash = hash ∧
        durable.RowChecked root.workCoordinate node := by
    obtain ⟨node, nodeFound, same⟩ := (saves.nodeMap valid).symm.find found
    obtain ⟨member, keyed⟩ := (lookup_nodeMap checked.distinct _ _).mp nodeFound
    exact ⟨node, same.symm, keyed, checked.rows node member⟩
  constructor
  · intro stored found
    obtain ⟨node, direct, _, rowChecked⟩ := row found
    have same := SameImmutable.of_directRow direct
    rw [← same.header, ← same.blockWork]
    exact rowChecked.canonicalWork
  · intro stored found
    have nodes : durable.finalRows = store.nodes :=
      congrArg nodes (saves.rebuilt_eq valid recorded checked)
    rw [nodes, saves.finalized] at finalFound
    exact Option.mem_unique finalFound found ▸ eligible
  intro hash stored found
  cases verdict : store.consensusInvalidBodyTombstones.lookup hash with
  | some tombstone => exact recorded.verdicts found verdict
  | none =>
    obtain ⟨node, direct, keyed, rowChecked⟩ := row found
    have body := HeaderNode.body_of_directRow direct
    change stored.bodyValidationState.isConsensusInvalid = false
    by_contra invalid
    rw [Bool.not_eq_false, ← body] at invalid
    obtain ⟨tombstone, tombstoneFound, _⟩ := rowChecked.verdict invalid
    rw [saves.tombstoneMap recorded, keyed, verdict] at tombstoneFound
    simp at tombstoneFound

end

/-- The durable rows of a reached store are accepted exactly when the store is recoverable, and
then give back the store; whatever rows are accepted, they form a store rooted at finality. -/
theorem reconstruct_of_run {finalized : Frontier} {header : Header} {blockWork cumulativeWork : Nat}
    (created : new finalized header blockWork cumulativeWork = .ok store)
    (mutations : List StoreMutation) (keepsRoot : store.RunKeepsRoot mutations)
    (saves : (store.run mutations).Saves durable) :
    ((∃ rebuilt, reconstruct durable = .ok rebuilt) ↔ (store.run mutations).Recoverable) ∧
      (∀ rebuilt, reconstruct durable = .ok rebuilt →
        rebuilt = (store.run mutations).restarted ∧
        rebuilt.selectBestHeaderChain =
          ((store.run mutations).preferHeaderTip none).selectBestHeaderChain) ∧
      ∀ input rebuilt, reconstruct input = .ok rebuilt → rebuilt.RepresentationInvariant ∧
        ∀ node ∈ input.headerNodes,
          (∃ retained, rebuilt.nodes.lookup node.hash = some retained ∧
            SameImmutable node retained) ∧
          rebuilt.view.Descends input.finalizedFrontier.hash node.hash := by
  have valid := run_invariant (new_invariant created) mutations keepsRoot
  have recorded := run_recorded (new_invariant created) (new_recorded created) mutations keepsRoot
  have returned (rebuilt : MemHeaderStore) (run : reconstruct durable = .ok rebuilt) :
      rebuilt = (store.run mutations).restarted := by
    obtain ⟨⟨root, checked⟩, _, rfl⟩ := reconstruct_eq_ok.mp run
    exact saves.rebuilt_eq valid recorded checked
  refine ⟨⟨?_, ?_⟩, ?_, ?_⟩
  · rintro ⟨rebuilt, run⟩
    exact saves.recoverable valid recorded run
  · intro recoverable
    obtain ⟨root, checked⟩ := saves.checked valid recorded recoverable
    have nodes : durable.finalRows = (store.run mutations).nodes :=
      congrArg nodes (saves.rebuilt_eq valid recorded checked)
    obtain ⟨anchor, anchorFound, _⟩ := valid.coherent.root
    refine ⟨_, reconstruct_eq_ok.mpr ⟨⟨root, checked⟩, ⟨anchor, ?_, ?_⟩, rfl⟩⟩
    · rw [nodes, saves.finalized]
      exact anchorFound
    · exact recoverable.rootEligible anchorFound
  · intro rebuilt run
    obtain rfl := returned rebuilt run
    exact ⟨rfl, rfl⟩
  · intro input rebuilt run
    exact ⟨reconstruct_invariant run, fun node member => reconstruct_descends run member⟩

end

end MemHeaderStore

def regtestForkMutations : List StoreMutation :=
  regtestFork ++
    [.graph (.setBodyValidationState regtestFirstHash (.consensusInvalid ⟨1⟩ "rule"))]

/-- The rows of a store in descending hash order, each claiming to inherit from the zero hash. -/
def scrambledRows (store : MemHeaderStore) : HeaderGraphReconstruction where
  finalizedFrontier := store.finalizedFrontier
  headerNodes := store.nodes.values.reverse.map fun node => node.withInheritedFrom (some ⟨0⟩)
  consensusInvalidBodyTombstones := store.consensusInvalidBodyTombstones.values.reverse

theorem scrambledRows_saves (store : MemHeaderStore) : store.Saves (scrambledRows store) where
  finalized := rfl
  rows := by
    rw [scrambledRows, map_map]
    exact (reverse_perm _).map _
  tombstones := reverse_perm _

theorem regtest_reconstruct_of_run :
    letI := regtestHasher
    let reached := regtestStore.run regtestForkMutations
    (reached.nodes.lookup regtestSecondHash).any (!·.isEligible) ∧
      reconstruct (scrambledRows reached) = .ok reached.restarted := by
  let := regtestHasher
  have created : new { height := 0, hash := regtestGenesisHash } regtestGenesis 17 0 =
      .ok regtestStore := new_regtest 17 0
  have keepsRoot : regtestStore.RunKeepsRoot regtestForkMutations := by decide +kernel
  have recovery := reconstruct_of_run created regtestForkMutations keepsRoot
    (scrambledRows_saves _)
  have accepted : (reconstruct
      (scrambledRows (regtestStore.run regtestForkMutations))).toBool = true := by decide +kernel
  refine ⟨by decide +kernel, ?_⟩
  cases run : reconstruct
      (scrambledRows (regtestStore.run regtestForkMutations)) with
  | error error =>
    rw [run] at accepted
    simp [Except.toBool] at accepted
  | ok rebuilt => rw [(recovery.2.1 rebuilt run).1]

/-- Reached stores whose own rows are rejected: a root with another work than its header's, an
excluded root, and a row inserted with a verdict that no tombstone records. -/
theorem reconstruct_rejects :
    letI := regtestHasher
    let miscounted := rootedAt { height := 0, hash := regtestGenesisHash }
      regtestGenesis 16 0
    let rejects := fun (store : MemHeaderStore) (mutations : List StoreMutation)
        (error : GraphError) => store.RunKeepsRoot mutations ∧
      reconstruct (scrambledRows (store.run mutations)) = .error error
    new { height := 0, hash := regtestGenesisHash } regtestGenesis 16 0 =
        .ok miscounted ∧
      new { height := 0, hash := regtestGenesisHash } regtestGenesis 17 0 =
        .ok regtestStore ∧
      rejects miscounted [] (.invalidHeaderNode regtestGenesisHash .canonicalBlockWork) ∧
      rejects regtestStore [.graph (.setBodyValidationState regtestGenesisHash
        (.consensusInvalid ⟨1⟩ "rule"))] (.ineligibleFinalizedFrontier regtestGenesisHash) ∧
      rejects regtestStore [.graph (.insertHeader regtestFirst .valid []
        (.consensusInvalid ⟨1⟩ "rule"))] (.permanentBodyInvalidity regtestFirstHash) := by
  let := regtestHasher
  refine ⟨new_regtest 16 0, new_regtest 17 0, ?_, ?_, ?_⟩
  all_goals decide +kernel

end Zakura.HeaderChain
