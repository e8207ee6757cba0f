import Zakura.HeaderChain.DeltaCore
import Zakura.HeaderChain.OverlayStructure
import Zakura.HeaderChain.StoreRun

/-!
Reading a delta off an overlay, rebuilding the overlay from it and merging it into
the store give one and the same graph.
-/

namespace Zakura.HeaderChain

open FiniteMap HeaderGraphView GraphOverlay Option

variable {node root old : HeaderNode} {hash : Hash} {store result : MemHeaderStore}
  {overlay : GraphOverlay}

namespace GraphOverlay

structure Replaces (overlay : GraphOverlay) (anchor : WorkCoordinate) (old node : HeaderNode) :
    Prop where
  header : node.header = old.header
  parentHash : node.parentHash = old.parentHash
  height : node.height = old.height
  blockWork : node.blockWork = old.blockWork
  verdict : old.bodyValidationState.isConsensusInvalid = true →
    node.bodyValidationState = old.bodyValidationState
  kept : overlay.workCoordinatesRebased = false → node.workCoordinate = old.workCoordinate
  moved : overlay.workCoordinatesRebased = true →
    rebasedCoordinate overlay.base.finalizedFrontier.hash anchor old = .ok node.workCoordinate

structure Publishable (overlay : GraphOverlay) : Prop where
  valid : overlay.Invariant
  revision : overlay.baseRevision = overlay.base.graphRevision
  replaces : ∀ {anchor hash old node},
    overlay.base.nodes.lookup overlay.base.finalizedFrontier.hash = some anchor →
    overlay.base.nodes.lookup hash = some old → overlay.headerNode hash = some node →
      overlay.Replaces anchor.workCoordinate old node
  origins : overlay.workCoordinatesRebased = true → ∀ {hash node},
    overlay.headerNode hash = some node →
      node.workCoordinate.originHash = overlay.base.finalizedFrontier.hash
  canonical : ∀ {hash node}, overlay.headerNode hash = some node →
    node.header.previousBlockHash = node.parentHash ∧
      node.header.difficultyThreshold.toWork = some node.blockWork
  verdicts : ∀ {hash node}, overlay.headerNode hash = some node →
    VerdictAgrees node.bodyValidationState (overlay.tombstone hash)
  tombstones : ∀ {hash row},
    overlay.newConsensusInvalidBodyTombstonesByHash.lookup hash = some row →
      row.hash = hash ∧ overlay.base.consensusInvalidBodyTombstones.lookup hash = none
  retired : ∀ {hash node}, overlay.retiredInsertedNodes.lookup hash = some node →
    node.hash = hash ∧ overlay.base.nodes.lookup hash = none ∧
      overlay.updatedHeaderNodesByHash.lookup hash = none
  advanced : overlay.finalizedFrontier = overlay.base.finalizedFrontier ∨
    overlay.base.finalizedFrontier.height < overlay.finalizedFrontier.height ∧
      overlay.descendantWalk
        (overlay.finalizedFrontier.height - overlay.base.finalizedFrontier.height)
        overlay.finalizedFrontier = .ok overlay.base.finalizedFrontier ∧
      ∀ {root}, overlay.headerNode overlay.finalizedFrontier.hash = some root →
        overlay.headerNode root.parentHash = none

theorem staged_visible (layered : overlay.Layered)
    (staged : overlay.updatedHeaderNodesByHash.lookup hash = some node) :
    overlay.headerNode hash = some node := by
  refine headerNode_eq_some.mpr ⟨?_, .inl staged⟩
  intro deleted
  simp [layered.unstaged hash deleted] at staged

theorem staged_keyed (valid : overlay.Invariant)
    (staged : overlay.updatedHeaderNodesByHash.lookup hash = some node) : node.hash = hash :=
  valid.coherent.keyed (staged_visible valid.layered staged)

theorem base_visible (layered : overlay.Layered) (kept : hash ∉ overlay.deletedHeaderHashes)
    (stored : overlay.base.nodes.lookup hash = some old) :
    ∃ node, overlay.headerNode hash = some node := by
  cases staged : overlay.updatedHeaderNodesByHash.lookup hash with
  | some row => exact ⟨row, staged_visible layered staged⟩
  | none => exact ⟨old, headerNode_eq_some.mpr ⟨kept, .inr ⟨staged, stored⟩⟩⟩

theorem mem_deltaRows (valid : overlay.Invariant) (node : HeaderNode) :
    node ∈ overlay.delta.updatedHeaderNodes ↔
      overlay.updatedHeaderNodesByHash.lookup node.hash = some node ∧
        overlay.base.nodes.lookup node.hash ≠ some node := by
  simp only [delta, sortRows, List.mem_insertionSort, List.mem_filter, mem_values,
    decide_eq_true_eq]
  constructor
  · rintro ⟨⟨hash, staged⟩, _, changed⟩
    rw [← staged_keyed valid staged] at staged
    exact ⟨staged, changed⟩
  · rintro ⟨staged, changed⟩
    refine ⟨⟨node.hash, staged⟩, ?_, changed⟩
    exact (headerNode_eq_some.mp (staged_visible valid.layered staged)).1

theorem nodup_deltaRows (valid : overlay.Invariant) :
    (overlay.delta.updatedHeaderNodes.map HeaderNode.hash).Nodup := by
  have all : (overlay.updatedHeaderNodesByHash.values.map HeaderNode.hash).Nodup :=
    nodup_values_map fun _ _ staged => staged_keyed valid staged
  refine (((List.perm_insertionSort _ _).map HeaderNode.hash).nodup_iff).mpr ?_
  exact all.sublist (List.filter_sublist.map HeaderNode.hash)

def projected (overlay : GraphOverlay) : GraphOverlay :=
  overlay.delta.project overlay.base

theorem lookup_projected (valid : overlay.Invariant) (hash : Hash) (node : HeaderNode) :
    overlay.projected.updatedHeaderNodesByHash.lookup hash = some node ↔
      overlay.updatedHeaderNodesByHash.lookup hash = some node ∧
        overlay.base.nodes.lookup hash ≠ some node := by
  change (indexBy HeaderNode.hash overlay.delta.updatedHeaderNodes).lookup hash = _ ↔ _
  rw [lookup_indexBy (nodup_deltaRows valid), mem_deltaRows valid]
  constructor
  · rintro ⟨facts, rfl⟩
    exact facts
  · intro facts
    have keyed := staged_keyed valid facts.1
    exact ⟨keyed.symm ▸ facts, keyed⟩

theorem listed_visible (valid : overlay.Invariant)
    (listed : overlay.projected.updatedHeaderNodesByHash.lookup hash = some node) :
    overlay.headerNode hash = some node :=
  staged_visible valid.layered ((lookup_projected valid hash node).mp listed).1

theorem lookup_projected_none (valid : overlay.Invariant) (hash : Hash)
    (unchanged : ∀ node, overlay.updatedHeaderNodesByHash.lookup hash = some node →
      overlay.base.nodes.lookup hash = some node) :
    overlay.projected.updatedHeaderNodesByHash.lookup hash = none := by
  by_contra listed
  obtain ⟨node, found⟩ := ne_none_iff_exists'.mp listed
  obtain ⟨staged, changed⟩ := (lookup_projected valid hash node).mp found
  exact changed (unchanged node staged)

@[simp] theorem projected_base (overlay : GraphOverlay) : overlay.projected.base = overlay.base :=
  rfl

theorem projected_deleted (overlay : GraphOverlay) :
    overlay.projected.deletedHeaderHashes = overlay.deletedHeaderHashes :=
  ascending_toFinset _

theorem projected_finalized (overlay : GraphOverlay) :
    overlay.projected.finalizedFrontier = overlay.finalizedFrontier := by
  simp only [projected, GraphDelta.project, delta]
  split
  · rfl
  next same =>
    exact (not_not.mp same).symm

theorem projected_rebased (overlay : GraphOverlay) :
    overlay.projected.workCoordinatesRebased = overlay.workCoordinatesRebased := by
  by_cases rebased : overlay.workCoordinatesRebased = true <;>
    simp [projected, GraphDelta.project, delta, rebased]

section

variable (valid : overlay.Invariant)
include valid

theorem projected_committed (hash : Hash) :
    (overlay.projected.updatedHeaderNodesByHash.lookup hash).or (overlay.base.nodes.lookup hash) =
      (overlay.updatedHeaderNodesByHash.lookup hash).or (overlay.base.nodes.lookup hash) := by
  cases staged : overlay.updatedHeaderNodesByHash.lookup hash with
  | none => rw [lookup_projected_none valid _ (by simp [staged])]
  | some row =>
    by_cases same : overlay.base.nodes.lookup hash = some row
    · rw [lookup_projected_none valid _ (by simp [staged, same]), same]
      rfl
    · rw [(lookup_projected valid _ _).mpr ⟨staged, same⟩]

theorem projected_headerNode (hash : Hash) :
    overlay.projected.headerNode hash = overlay.headerNode hash := by
  have split (overlay : GraphOverlay) : overlay.headerNode hash =
      if hash ∈ overlay.deletedHeaderHashes then none
      else (overlay.updatedHeaderNodesByHash.lookup hash).or (overlay.base.nodes.lookup hash) := by
    unfold headerNode
    cases overlay.updatedHeaderNodesByHash.lookup hash <;> rfl
  rw [split, split, projected_deleted, projected_base, projected_committed valid]

theorem projected_visible (hash : Hash) : (hash ∈ overlay.projected.updatedHeaderNodesByHash.keys ∨
      hash ∈ overlay.base.nodes.keys ∧ hash ∉ overlay.delta.deletedHeaderHashes) ↔
      ∃ node, overlay.headerNode hash = some node := by
  simp only [delta, mem_ascending, mem_keys_iff]
  constructor
  · rintro (⟨node, listed⟩ | ⟨⟨node, stored⟩, kept⟩)
    · exact ⟨node, listed_visible valid listed⟩
    · exact base_visible valid.layered kept stored
  rintro ⟨node, found⟩
  obtain ⟨kept, staged | ⟨_, stored⟩⟩ := headerNode_eq_some.mp found
  · by_cases same : overlay.base.nodes.lookup hash = some node
    · exact .inr ⟨⟨node, same⟩, kept⟩
    · exact .inl ⟨node, (lookup_projected valid hash node).mpr ⟨staged, same⟩⟩
  · exact .inr ⟨⟨node, stored⟩, kept⟩

theorem mem_projected_added (parent child : Hash) :
    child ∈ overlay.projected.addedHeaderChildren.members parent ↔
      ∃ node, overlay.headerNode child = some node ∧
        overlay.base.nodes.lookup child = none ∧ node.parentHash = parent ∧
        ∃ above, overlay.headerNode parent = some above := by
  change child ∈ (grouped (overlay.delta.addedChildren overlay.base)).members parent ↔ _
  have retained := projected_visible valid
  simp only [projected, GraphDelta.project] at retained
  simp only [mem_grouped, GraphDelta.addedChildren, List.mem_map, List.mem_filter,
    mem_deltaRows valid, decide_eq_true_eq, Prod.mk.injEq, retained]
  constructor
  · rintro ⟨node, ⟨⟨staged, _⟩, fresh, visible⟩, rfl, rfl⟩
    exact ⟨node, staged_visible valid.layered staged,
      Finmap.lookup_eq_none.mpr (mt Finmap.mem_keys.mpr fresh), rfl, visible⟩
  rintro ⟨node, found, fresh, rfl, visible⟩
  obtain rfl := valid.coherent.keyed found
  obtain ⟨_, staged | ⟨_, stored⟩⟩ := headerNode_eq_some.mp found
  · exact ⟨node, ⟨⟨staged, by simp [fresh]⟩, by simp [mem_keys_iff, fresh], visible⟩, rfl, rfl⟩
  · simp [fresh] at stored

theorem mem_projected_removed (parent child : Hash) :
    child ∈ overlay.projected.removedHeaderChildren.members parent ↔
      child ∈ overlay.deletedHeaderHashes ∧ child ≠ overlay.base.finalizedFrontier.hash ∧
        ∃ old, overlay.base.nodes.lookup child = some old ∧ old.parentHash = parent := by
  change child ∈ (grouped (overlay.delta.removedChildren overlay.base)).members parent ↔ _
  simp only [mem_grouped, GraphDelta.removedChildren, List.mem_filterMap, bind_eq_some_iff,
    delta, mem_ascending]
  constructor
  · rintro ⟨hash, deleted, old, stored, edge⟩
    split at edge
    next notRoot =>
      have keyed : old.hash = hash := valid.base.coherent.keyed stored
      obtain ⟨rfl, rfl⟩ := edge
      rw [keyed] at notRoot ⊢
      exact ⟨deleted, notRoot, old, stored, rfl⟩
    · simp at edge
  · rintro ⟨deleted, notRoot, old, stored, rfl⟩
    have keyed : old.hash = child := valid.base.coherent.keyed stored
    exact ⟨child, deleted, old, stored, by rw [keyed, if_pos notRoot]⟩

end

section

variable {child : Hash}

section

variable (publishable : overlay.Publishable)
include publishable

theorem Publishable.replacement (stored : overlay.base.nodes.lookup hash = some old)
    (found : overlay.headerNode hash = some node) :
    ∃ anchor, overlay.base.nodes.lookup overlay.base.finalizedFrontier.hash = some anchor ∧
      overlay.Replaces anchor.workCoordinate old node := by
  obtain ⟨anchor, anchorFound, _⟩ := publishable.valid.base.coherent.root
  exact ⟨anchor, anchorFound, publishable.replaces anchorFound stored found⟩

theorem Publishable.notRoot (found : overlay.headerNode child = some node)
    (above : ∃ parent, overlay.headerNode node.parentHash = some parent)
    (notBase : child ≠ overlay.base.finalizedFrontier.hash) :
    child ≠ overlay.finalizedFrontier.hash := by
  rintro rfl
  obtain ⟨_, parentFound⟩ := above
  rcases publishable.advanced with same | ⟨_, _, orphan⟩
  · exact notBase (same ▸ rfl)
  · simp [orphan found] at parentFound

theorem Publishable.notBaseRoot (found : overlay.headerNode child = some node)
    (notRoot : child ≠ overlay.finalizedFrontier.hash) :
    child ≠ overlay.base.finalizedFrontier.hash := by
  rintro rfl
  rcases publishable.advanced with same | ⟨_, _, _⟩
  · exact notRoot (same ▸ rfl)
  obtain ⟨anchor, stored, replaces⟩ := publishable.valid.base.coherent.root
  obtain ⟨_, _, same⟩ := publishable.replacement stored found
  have above : overlay.finalizedFrontier.height < node.height :=
    publishable.valid.coherent.toShaped.above_root found notRoot
  have baseHeight : anchor.height = overlay.base.finalizedFrontier.height := replaces
  have height := same.height
  omega

theorem Publishable.headerChildrenOf :
    overlay.projected.headerChildrenOf = overlay.headerChildrenOf := by
  have valid := publishable.valid
  funext parent
  ext child
  have visible (hash : Hash) : (∃ node, overlay.projected.headerNode hash = some node) ↔
      ∃ node, overlay.headerNode hash = some node := by
    rw [projected_headerNode valid]
  rw [mem_headerChildrenOf, visible, projected_deleted, mem_projected_added valid,
    mem_projected_removed valid]
  refine Iff.trans ?_ (valid.coherent.children parent child).symm
  change _ ∧ _ ∧ (child ∈ overlay.base.view.childrenOf parent ∧ _ ∨ _) ↔
    ∃ node, overlay.headerNode child = some node ∧ child ≠ overlay.finalizedFrontier.hash ∧
      node.parentHash = parent
  rw [valid.base.coherent.children]
  change _ ∧ _ ∧ ((∃ old, overlay.base.nodes.lookup child = some old ∧
    child ≠ overlay.base.finalizedFrontier.hash ∧ old.parentHash = parent) ∧ _ ∨ _) ↔ _
  constructor
  · rintro ⟨above, kept, ⟨⟨old, stored, notBase, link⟩, _⟩ | ⟨node, found, fresh, link, _⟩⟩
    · obtain ⟨node, found⟩ := base_visible valid.layered kept stored
      obtain ⟨_, _, same⟩ := publishable.replacement stored found
      have nodeLink : node.parentHash = parent := same.parentHash.trans link
      exact ⟨node, found, publishable.notRoot found (nodeLink ▸ above) notBase, nodeLink⟩
    refine ⟨node, found, publishable.notRoot found (link ▸ above) ?_, link⟩
    rintro rfl
    obtain ⟨_, stored, _⟩ := valid.base.coherent.root
    change overlay.base.nodes.lookup overlay.base.finalizedFrontier.hash = _ at stored
    simp [fresh] at stored
  rintro ⟨node, found, notRoot, rfl⟩
  obtain ⟨above, aboveFound, _⟩ := valid.coherent.parent found notRoot
  have notBase := publishable.notBaseRoot found notRoot
  have kept := (headerNode_eq_some.mp found).1
  refine ⟨⟨above, aboveFound⟩, kept, ?_⟩
  cases stored : overlay.base.nodes.lookup child with
  | none => exact .inr ⟨node, found, rfl, rfl, above, aboveFound⟩
  | some old =>
    obtain ⟨_, _, same⟩ := publishable.replacement stored found
    exact .inl ⟨⟨old, rfl, notBase, same.parentHash.symm⟩, fun gone => kept gone.1⟩

end

theorem outside_boundary (outside : hash ∉ overlay.deltaBoundary) :
    (∀ {key node}, overlay.updatedHeaderNodesByHash.lookup key = some node →
      node.hash ≠ hash ∧ node.parentHash ≠ hash) ∧ hash ∉ overlay.deletedHeaderHashes ∧
      ∀ gone ∈ overlay.deletedHeaderHashes, ∀ old, overlay.base.nodes.lookup gone = some old →
        old.parentHash ≠ hash := by
  simp only [deltaBoundary, Finset.mem_union, List.mem_toFinset, List.mem_map, mem_values,
    List.mem_filterMap, mem_ascending, map_eq_some_iff, not_or, not_exists, not_and]
    at outside
  obtain ⟨⟨⟨⟨unkeyed, unlinked⟩, kept⟩, childrenKept⟩, _⟩ := outside
  exact ⟨fun staged => ⟨unkeyed _ ⟨_, staged⟩, unlinked _ ⟨_, staged⟩⟩, kept, childrenKept⟩

theorem headerNode_of_unlisted (valid : overlay.Invariant)
    (kept : hash ∉ overlay.deletedHeaderHashes)
    (unlisted : ∀ node, overlay.projected.updatedHeaderNodesByHash.lookup hash ≠ some node) :
    overlay.headerNode hash = overlay.base.nodes.lookup hash := by
  rw [← projected_headerNode valid]
  simp only [headerNode, projected_deleted, kept, if_false, eq_none_iff_forall_ne_some.mpr unlisted]
  rfl

section

variable (publishable : overlay.Publishable)
include publishable

theorem Publishable.outside (outside : hash ∉ overlay.projected.deltaBoundary) :
    overlay.headerNode hash = overlay.base.nodes.lookup hash ∧
      ∀ child, child ∈ overlay.headerChildrenOf hash ↔ child ∈ overlay.base.children.members hash := by
  have valid := publishable.valid
  obtain ⟨unchanged, kept, childrenKept⟩ := outside_boundary outside
  rw [projected_deleted] at kept childrenKept
  have same : overlay.headerNode hash = overlay.base.nodes.lookup hash :=
    headerNode_of_unlisted valid kept fun node listed =>
      (unchanged listed).1 (valid.coherent.keyed (listed_visible valid listed))
  refine ⟨same, fun child => ?_⟩
  rw [← publishable.headerChildrenOf, mem_headerChildrenOf, projected_headerNode valid,
    projected_deleted, mem_projected_added valid, mem_projected_removed valid]
  constructor
  · rintro ⟨_, _, ⟨stored, _⟩ | ⟨node, found, fresh, link, _⟩⟩
    · exact stored
    obtain ⟨_, staged | ⟨_, stored⟩⟩ := headerNode_eq_some.mp found
    · have listed := (lookup_projected valid child node).mpr ⟨staged, by simp [fresh]⟩
      exact absurd link (unchanged listed).2
    · simp [fresh] at stored
  intro stored
  obtain ⟨old, oldFound, notRoot, link⟩ := (valid.base.coherent.children hash child).mp stored
  have notDeleted : child ∉ overlay.deletedHeaderHashes := fun gone =>
    childrenKept child gone old oldFound link
  obtain ⟨parent, parentFound, _⟩ := valid.base.coherent.parent oldFound notRoot
  rw [link] at parentFound
  exact ⟨⟨parent, same.trans parentFound⟩, notDeleted, .inl ⟨stored, fun gone =>
    notDeleted gone.1⟩⟩

theorem Publishable.outside_child (outside : hash ∉ overlay.projected.deltaBoundary)
    (member : child ∈ overlay.base.children.members hash) :
    overlay.headerNode child = overlay.base.nodes.lookup child := by
  have valid := publishable.valid
  obtain ⟨unchanged, _, childrenKept⟩ := outside_boundary outside
  rw [projected_deleted] at childrenKept
  obtain ⟨old, oldFound, _, link⟩ := (valid.base.coherent.children hash child).mp member
  refine headerNode_of_unlisted valid (fun gone => childrenKept child gone old oldFound link) ?_
  intro node listed
  obtain ⟨_, _, same⟩ := publishable.replacement oldFound (listed_visible valid listed)
  exact (unchanged listed).2 (same.parentHash.trans link)

theorem Publishable.tips :
    overlay.projected.refreshDeltaTips.eligibleHeaderTips = overlay.eligibleHeaderTips := by
  have valid := publishable.valid
  have find : overlay.projected.headerNode = overlay.headerNode :=
    funext (projected_headerNode valid)
  ext hash
  refine (mem_refresh_ascending _ _ _ hash).trans ?_
  refine Iff.trans ?_ (valid.coherent.tips hash).symm
  split
  · rw [isEligibleHeaderTip_iff, isEligibleHeaderTip_iff]
    simp [view, find, publishable.headerChildrenOf]
  rename_i outside
  refine (valid.base.coherent.tips hash).trans ?_
  obtain ⟨same, children⟩ := publishable.outside outside
  have own {query : Hash} (same : overlay.headerNode query = overlay.base.nodes.lookup query) :
      overlay.base.view.eligibleAt query = overlay.view.eligibleAt query := by
    simp [eligibleAt, view, MemHeaderStore.view, same]
  rw [isEligibleHeaderTip_congr (own same) fun child => (children child).symm]
  exact fun child member =>
    own (publishable.outside_child outside ((children child).mp member))

end

theorem refreshDeltaTips_view (overlay : GraphOverlay) : overlay.refreshDeltaTips.view =
      { overlay.view with tips := overlay.refreshDeltaTips.eligibleHeaderTips } := rfl

theorem Publishable.rebuilt_view (publishable : overlay.Publishable) :
    overlay.projected.refreshDeltaTips.view = overlay.view := by
  have valid := publishable.valid
  have shaped := valid.base.coherent.toShaped
  have find : overlay.projected.headerNode = overlay.headerNode :=
    funext (projected_headerNode valid)
  have hashes : overlay.projected.headerHashesAt = overlay.headerHashesAt := by
    funext height
    ext hash
    have projectedShaped : overlay.projected.base.view.Shaped := shaped
    have rebuilt := mem_headerHashesAt projectedShaped height hash
    rw [rebuilt, mem_headerHashesAt shaped, find]
  rw [refreshDeltaTips_view, publishable.tips, view, find, hashes, publishable.headerChildrenOf,
    projected_finalized]
  rfl

end

section

variable {steps : Nat} {cursor last : Frontier}

theorem walk_step (above : overlay.base.finalizedFrontier.height < cursor.height)
    (walk : overlay.descendantWalk (steps + 1) cursor = .ok last) :
    ∃ node, node.height = cursor.height ∧
      overlay.descendantWalk steps ⟨cursor.height - 1, node.parentHash⟩ = .ok last ∧
      ((overlay.updatedHeaderNodesByHash.lookup cursor.hash).or
          (overlay.base.nodes.lookup cursor.hash) = some node ∧
        overlay.retiredWalk (steps + 1) cursor =
          overlay.retiredWalk steps ⟨cursor.height - 1, node.parentHash⟩ ∨
      (overlay.updatedHeaderNodesByHash.lookup cursor.hash).or
          (overlay.base.nodes.lookup cursor.hash) = none ∧
        overlay.retiredInsertedNodes.lookup cursor.hash = some node ∧
        overlay.retiredWalk (steps + 1) cursor =
          node :: overlay.retiredWalk steps ⟨cursor.height - 1, node.parentHash⟩) := by
  simp only [descendantWalk, resolve, Nat.not_le.mpr above, if_false] at walk
  simp only [retiredWalk, Nat.not_le.mpr above, if_false]
  split at walk
  · simp at walk
  rename_i node found
  split at walk
  · simp at walk
  rename_i height
  refine ⟨node, not_not.mp height, walk, ?_⟩
  cases committed : (overlay.updatedHeaderNodesByHash.lookup cursor.hash).or
      (overlay.base.nodes.lookup cursor.hash) with
  | some other =>
    obtain rfl : other = node := by simpa [committed] using found
    simp [height]
  | none =>
    rw [committed, none_or] at found
    simp [found, height]

section

variable (publishable : overlay.Publishable)
include publishable

theorem retiredWalk_spec (walk : overlay.descendantWalk steps cursor = .ok last) :
    (∀ node ∈ overlay.retiredWalk steps cursor, node.height ≤ cursor.height ∧
      overlay.retiredInsertedNodes.lookup node.hash = some node) ∧
      ((overlay.retiredWalk steps cursor).map HeaderNode.hash).Nodup := by
  induction steps generalizing cursor with
  | zero => simp [retiredWalk]
  | succ steps ih =>
    by_cases reached : cursor.height ≤ overlay.base.finalizedFrontier.height
    · simp [retiredWalk, reached]
    obtain ⟨_, height, later, kept⟩ := walk_step (Nat.not_le.mp reached) walk
    obtain ⟨below, distinct⟩ := ih later
    rcases kept with ⟨_, same⟩ | ⟨_, retired, same⟩
    · rw [same]
      exact ⟨fun row member => (below row member).imp_left (·.trans (Nat.sub_le _ _)), distinct⟩
    rw [same, List.map_cons, List.nodup_cons, List.forall_mem_cons, List.mem_map]
    rw [← (publishable.retired retired).1] at retired
    refine ⟨⟨⟨height.le, retired⟩, fun row member =>
      (below row member).imp_left (·.trans (Nat.sub_le _ _))⟩, ?_, distinct⟩
    rintro ⟨other, member, sameHash⟩
    obtain ⟨lower, found⟩ := below other member
    rw [sameHash, retired] at found
    obtain rfl := some.inj found
    simp only at lower
    omega

theorem descendantWalk_projected (walk : overlay.descendantWalk steps cursor = .ok last)
    (evidence : ∀ node ∈ overlay.retiredWalk steps cursor,
      overlay.projected.retiredInsertedNodes.lookup node.hash = some node) :
    overlay.projected.descendantWalk steps cursor = .ok last := by
  induction steps generalizing cursor with
  | zero => exact walk
  | succ steps ih =>
    by_cases reached : cursor.height ≤ overlay.base.finalizedFrontier.height
    · simpa [descendantWalk, reached] using walk
    obtain ⟨node, height, later, kept⟩ := walk_step (Nat.not_le.mp reached) walk
    have resolved : overlay.projected.resolve cursor.hash = some node := by
      unfold resolve
      rw [projected_base, projected_committed publishable.valid]
      rcases kept with ⟨committed, _⟩ | ⟨absent, retired, same⟩
      · rw [committed, some_or]
      · have first := evidence node (by simp [same])
        rw [(publishable.retired retired).1] at first
        rw [absent, none_or, first]
    simp only [descendantWalk, projected_base, reached, if_false, resolved, height, ne_eq,
      not_true_eq_false]
    refine ih later fun row member => evidence row ?_
    rcases kept with ⟨_, same⟩ | ⟨_, _, same⟩ <;> simp [same, member]

theorem Publishable.retired_evidence
    (moved : overlay.finalizedFrontier ≠ overlay.base.finalizedFrontier) :
    (∀ node ∈ overlay.delta.retiredFinalizedPathNodes,
      overlay.retiredInsertedNodes.lookup node.hash = some node) ∧
      (overlay.delta.retiredFinalizedPathNodes.map HeaderNode.hash).Nodup ∧
      overlay.projected.validateFinalizedDescendant = none := by
  rcases publishable.advanced with same | ⟨_, walk, _⟩
  · exact absurd same moved
  have rows : overlay.delta.retiredFinalizedPathNodes = sortRows (overlay.retiredWalk
      (overlay.finalizedFrontier.height - overlay.base.finalizedFrontier.height)
      overlay.finalizedFrontier) := if_neg moved
  obtain ⟨keyed, walked⟩ := retiredWalk_spec publishable walk
  have distinct : (overlay.delta.retiredFinalizedPathNodes.map HeaderNode.hash).Nodup := by
    rw [rows]
    exact (((List.perm_insertionSort _ _).map HeaderNode.hash).nodup_iff).mpr walked
  have projectedWalk := descendantWalk_projected publishable walk (by
    intro node member
    change (indexBy HeaderNode.hash overlay.delta.retiredFinalizedPathNodes).lookup _ = _
    rw [lookup_indexBy distinct, rows]
    exact ⟨(List.mem_insertionSort _).mpr member, rfl⟩)
  refine ⟨fun node member => ?_, distinct, ?_⟩
  · rw [rows] at member
    exact (keyed node ((List.mem_insertionSort _).mp member)).2
  · unfold validateFinalizedDescendant
    rw [projected_finalized, projected_base, if_neg moved, projectedWalk]
    simp

theorem Publishable.validateFinalizedDescendant :
    overlay.projected.validateFinalizedDescendant = none := by
  by_cases same : overlay.finalizedFrontier = overlay.base.finalizedFrontier
  · refine if_pos ?_
    rw [projected_finalized]
    exact same
  · exact (publishable.retired_evidence same).2.2

theorem Publishable.inputError : overlay.delta.inputError overlay.base = none := by
  have valid := publishable.valid
  obtain ⟨retiredKeyed, retiredDistinct⟩ :
      (∀ node ∈ overlay.delta.retiredFinalizedPathNodes,
        overlay.retiredInsertedNodes.lookup node.hash = some node) ∧
      (overlay.delta.retiredFinalizedPathNodes.map HeaderNode.hash).Nodup := by
    by_cases same : overlay.finalizedFrontier = overlay.base.finalizedFrontier
    · simp [delta, retiredFinalizedPathNodes, same]
    · exact (publishable.retired_evidence same).imp_right And.left
  have tombstonesDistinct : (overlay.delta.newConsensusInvalidBodyTombstones.map
      ConsensusInvalidBodyTombstone.hash).Nodup :=
    nodup_values_map fun _ _ recorded => (publishable.tombstones recorded).1
  have deletedDistinct : overlay.delta.deletedHeaderHashes.Nodup := nodup_ascending _
  have updatedKeys (hash : Hash) :
      hash ∈ (indexBy HeaderNode.hash overlay.delta.updatedHeaderNodes).keys →
        ∃ node, overlay.updatedHeaderNodesByHash.lookup hash = some node := by
    intro listed
    obtain ⟨node, found⟩ := mem_keys_iff.mp listed
    exact ⟨node, ((lookup_projected valid hash node).mp found).1⟩
  simp only [GraphDelta.inputError, or_eq_none_iff, map_eq_none_iff,
    firstDuplicate_eq_none, List.findSome?_eq_none_iff]
  refine ⟨⟨⟨⟨nodup_deltaRows valid, deletedDistinct⟩, ?_⟩, retiredDistinct⟩, ?_, tombstonesDistinct⟩
  · intro hash member
    have deleted : hash ∈ overlay.deletedHeaderHashes := mem_ascending.mp member
    rw [if_neg, if_neg]
    · rw [not_not, mem_keys_iff]
      exact valid.layered.deletedBase hash deleted
    · intro listed
      obtain ⟨node, staged⟩ := updatedKeys hash listed
      simp [valid.layered.unstaged hash deleted] at staged
  intro node member
  obtain ⟨key, found⟩ := mem_values.mp member
  obtain ⟨listed, _⟩ := (lookup_indexBy retiredDistinct key node).mp found
  obtain ⟨_, fresh, unstaged⟩ := publishable.retired (retiredKeyed node listed)
  rw [if_neg]
  rintro (stored | listed)
  · exact Finmap.lookup_eq_none.mp fresh (Finmap.mem_keys.mp stored)
  · obtain ⟨_, staged⟩ := updatedKeys node.hash listed
    simp [unstaged] at staged

theorem Publishable.updatedNodeError (found : overlay.headerNode hash = some node) :
    overlay.projected.updatedNodeError node = none := by
  have valid := publishable.valid
  obtain rfl := valid.coherent.keyed found
  obtain ⟨link, work⟩ := publishable.canonical found
  have replacement : overlay.projected.replacementError node = none := by
    rw [replacementError, projected_base]
    cases stored : overlay.base.nodes.lookup node.hash with
    | none => rfl
    | some old =>
      obtain ⟨_, _, same⟩ := publishable.replacement stored found
      have keyed : old.hash = node.hash := valid.base.coherent.keyed stored
      refine if_neg ?_
      rw [projected_rebased]
      rintro (changed | changed | changed | changed | changed | ⟨verdict, changed⟩ | ⟨kept, changed⟩)
      · exact changed same.header.symm
      · exact changed keyed
      · exact changed same.parentHash.symm
      · exact changed same.height.symm
      · exact changed same.blockWork.symm
      · exact changed (same.verdict verdict).symm
      · exact changed (same.kept (by simpa using kept)).symm
  have parent : overlay.projected.parentError node = none := by
    unfold parentError
    rw [projected_finalized, projected_headerNode valid]
    split
    next atRoot =>
      rw [atRoot] at found
      rw [valid.coherent.rootInherits found]
      rfl
    rename_i notRoot
    obtain ⟨above, aboveFound, height⟩ := valid.coherent.parent found notRoot
    have sum := valid.coherent.work found notRoot aboveFound
    have bound := valid.bounded node.hash node found notRoot
    have next : Height.next above.height = some node.height :=
      Height.next_eq_some.mpr ⟨height, height ▸ bound⟩
    change overlay.headerNode node.parentHash = _ at aboveFound
    simp [aboveFound, next, sum]
  simp [updatedNodeError, link, work, replacement, parent]

theorem Publishable.validateUpdatedNodes : overlay.projected.validateUpdatedNodes = none := by
  have valid := publishable.valid
  obtain ⟨anchor, anchorFound, _⟩ := valid.base.coherent.root
  change overlay.base.nodes.lookup overlay.base.finalizedFrontier.hash = _ at anchorFound
  simp only [GraphOverlay.validateUpdatedNodes, projected_base, anchorFound, or_eq_none_iff,
    List.findSome?_eq_none_iff]
  constructor
  · intro node member
    obtain ⟨hash, listed⟩ := mem_values.mp member
    exact publishable.updatedNodeError (listed_visible valid listed)
  rw [projected_rebased]
  split
  next rebased =>
    rw [List.findSome?_eq_none_iff]
    intro node member
    obtain ⟨hash, found⟩ := mem_headerNodes.mp member
    rw [projected_headerNode valid] at found
    obtain rfl := valid.coherent.keyed found
    rw [rebasedNodeError, projected_base,
      if_neg (not_not.mpr (publishable.origins rebased found))]
    cases stored : overlay.base.nodes.lookup node.hash with
    | none => rfl
    | some old =>
      have same := publishable.replaces anchorFound stored found
      have expected := same.moved rebased
      dsimp only
      rw [expected]
      simp
  · rfl

theorem Publishable.validateDeletedNodes : overlay.projected.validateDeletedNodes = none := by
  have valid := publishable.valid
  simp only [GraphOverlay.validateDeletedNodes, List.findSome?_eq_none_iff, mem_ascending]
  rw [projected_deleted]
  intro hash deleted child member
  obtain ⟨_, stored, _, link⟩ := (valid.base.coherent.children hash child).mp member
  refine if_neg ?_
  rw [projected_headerNode valid, projected_finalized]
  rintro ⟨visible, notRoot⟩
  obtain ⟨_, found⟩ := isSome_iff_exists.mp visible
  obtain ⟨_, _, same⟩ := publishable.replacement stored found
  obtain ⟨_, aboveFound, _⟩ := valid.coherent.parent found notRoot
  rw [same.parentHash, link] at aboveFound
  exact (headerNode_eq_some.mp aboveFound).1 deleted

theorem Publishable.projected_tombstones (hash : Hash) :
    overlay.projected.newConsensusInvalidBodyTombstonesByHash.lookup hash =
      overlay.newConsensusInvalidBodyTombstonesByHash.lookup hash := by
  change (indexBy ConsensusInvalidBodyTombstone.hash
    overlay.newConsensusInvalidBodyTombstonesByHash.values).lookup hash = _
  rw [indexBy_values (.refl _) fun _ _ recorded => (publishable.tombstones recorded).1]

theorem Publishable.projected_tombstone (hash : Hash) :
    overlay.projected.tombstone hash = overlay.tombstone hash := by
  unfold tombstone
  rw [publishable.projected_tombstones]
  rfl

theorem Publishable.validateTombstones : overlay.projected.validateTombstones = none := by
  have valid := publishable.valid
  simp only [GraphOverlay.validateTombstones, or_eq_none_iff, List.findSome?_eq_none_iff,
    mem_values]
  constructor
  · rintro row ⟨hash, recorded⟩
    rw [publishable.projected_tombstones] at recorded
    obtain ⟨rfl, unrecorded⟩ := publishable.tombstones recorded
    have current : overlay.tombstone row.hash = some row := by simp [tombstone, recorded]
    unfold newTombstoneError
    rw [projected_headerNode valid]
    change (if (overlay.base.consensusInvalidBodyTombstones.lookup row.hash).any _ = true then _
      else _) = _
    rw [unrecorded]
    cases found : overlay.headerNode row.hash with
    | none => simp
    | some node =>
      have agrees := publishable.verdicts found
      rw [current] at agrees
      have body : node.bodyValidationState = row.bodyState := agrees
      simp [body]
  · rintro node ⟨hash, listed⟩
    have found := listed_visible valid listed
    obtain rfl := valid.coherent.keyed found
    have agrees := publishable.verdicts found
    unfold verdictError
    rw [publishable.projected_tombstone]
    cases recorded : overlay.tombstone node.hash with
    | none =>
      rw [recorded] at agrees
      have undecided : node.bodyValidationState.isConsensusInvalid = false := agrees
      simp [undecided]
    | some row =>
      rw [recorded] at agrees
      exact if_pos agrees

theorem Publishable.validateUpdatedEligibility :
    overlay.projected.validateUpdatedEligibility = none := by
  have valid := publishable.valid
  simp only [GraphOverlay.validateUpdatedEligibility, List.findSome?_eq_none_iff, mem_values]
  rintro node ⟨hash, listed⟩
  have found := listed_visible valid listed
  obtain rfl := valid.coherent.keyed found
  simp only [inheritedError, or_eq_none_iff, List.findSome?_eq_none_iff]
  rw [projected_finalized, projected_headerNode valid]
  constructor
  · split
    next notRoot =>
      obtain ⟨_, aboveFound, _⟩ := valid.coherent.parent found notRoot
      have inherits := valid.coherent.inherits found notRoot aboveFound
      have aboveKeyed := valid.coherent.keyed aboveFound
      change overlay.headerNode node.parentHash = _ at aboveFound
      simp [aboveFound, inherits, aboveKeyed]
    · rfl
  intro child member
  have linked : child ∈ overlay.headerChildrenOf node.hash := by
    rw [← publishable.headerChildrenOf]
    exact mem_ascending.mp member
  obtain ⟨row, rowFound, notRoot, link⟩ := (valid.coherent.children _ _).mp linked
  have inherits := valid.coherent.inherits rowFound notRoot (link.symm ▸ found)
  rw [projected_headerNode valid]
  change overlay.headerNode child = some row at rowFound
  rw [rowFound, if_neg]
  simp [inherits, link]

theorem Publishable.fromDelta
    (rootFound : overlay.headerNode overlay.finalizedFrontier.hash = some root)
    (eligible : root.isEligible = true) :
    fromDelta overlay.base overlay.delta = .ok overlay.projected.refreshDeltaTips := by
  have valid := publishable.valid
  have height : root.height = overlay.finalizedFrontier.height :=
    valid.coherent.toShaped.root_height rootFound
  have validated : overlay.projected.validateDeltaNodes = none := by
    unfold validateDeltaNodes
    rw [projected_finalized, projected_headerNode valid]
    simp only [rootFound, height, eligible, publishable.validateFinalizedDescendant,
      publishable.validateUpdatedNodes, publishable.validateDeletedNodes,
      publishable.validateTombstones, publishable.validateUpdatedEligibility]
    simp
  have revision : overlay.delta.baseRevision = overlay.base.graphRevision := publishable.revision
  have input := publishable.inputError
  unfold projected at validated ⊢
  simp [GraphOverlay.fromDelta, revision, input, validated]

end

end

end GraphOverlay

namespace MemHeaderStore

structure Written (store result : MemHeaderStore) (rows : List HeaderNode) : Prop where
  find : ∀ query node, result.nodes.lookup query = some node ↔
    node ∈ rows ∧ node.hash = query ∨
      query ∉ rows.map HeaderNode.hash ∧ store.nodes.lookup query = some node
  heights : ∀ height query, query ∈ result.heights.members height ↔
    query ∈ store.heights.members height ∨
      store.nodes.lookup query = none ∧ ∃ node ∈ rows, node.hash = query ∧ node.height = height
  heightsFull : NoEmpty store.heights → NoEmpty result.heights
  children : result.children = store.children
  preferred : result.preferredHeaderTip = store.preferredHeaderTip
  tombstones : result.consensusInvalidBodyTombstones = store.consensusInvalidBodyTombstones

theorem writeRow_nodes (rows : List HeaderNode) (store : MemHeaderStore) :
    (rows.foldl writeRow store).nodes =
      rows.foldl (fun nodes node => nodes.insert node.hash node) store.nodes := by
  induction rows generalizing store with
  | nil => rfl
  | cons first rest ih => exact ih (store.writeRow first)

theorem foldl_writeRow (store : MemHeaderStore) (rows : List HeaderNode)
    (distinct : (rows.map HeaderNode.hash).Nodup) :
    store.Written (rows.foldl writeRow store) rows := by
  induction rows generalizing store with
  | nil => exact ⟨by simp, by simp, id, rfl, rfl, rfl⟩
  | cons first rest ih =>
    have find (query : Hash) (node : HeaderNode) := writeRow_nodes (first :: rest) store ▸
      lookup_foldl_insert HeaderNode.hash (first :: rest) distinct store.nodes query node
    rw [List.map_cons, List.nodup_cons] at distinct
    have written := ih (store.writeRow first) distinct.2
    refine ⟨find, fun height query => ?_, fun full => written.heightsFull ?_, written.children,
      written.preferred, written.tombstones⟩
    · have added : query ∈ (store.writeRow first).heights.members height ↔
          query ∈ store.heights.members height ∨ store.nodes.lookup query = none ∧
            first.hash = query ∧ first.height = height := by
        simp only [writeRow]
        split
        next known =>
          refine (or_iff_left ?_).symm
          rintro ⟨fresh, rfl, _⟩
          exact Finmap.lookup_eq_none.mp fresh (Finmap.mem_keys.mp known)
        next unknown =>
          rw [mem_members_addMember]
          refine or_congr_right ⟨?_, ?_⟩
          · rintro ⟨rfl, rfl⟩
            exact ⟨Finmap.lookup_eq_none.mpr (mt Finmap.mem_keys.mpr unknown), rfl, rfl⟩
          · rintro ⟨_, rfl, rfl⟩
            exact ⟨rfl, rfl⟩
      rw [List.foldl_cons, written.heights, added]
      simp only [writeRow, lookup_insert_ite, List.mem_cons, exists_eq_or_imp]
      by_cases same : query = first.hash
      · subst query
        have later : ¬∃ node ∈ rest, node.hash = first.hash ∧ node.height = height := by
          rintro ⟨node, member, hash, _⟩
          exact distinct.1 (List.mem_map.mpr ⟨node, member, hash⟩)
        simp [later]
      · simp [same, Ne.symm same]
    · simp only [writeRow]
      split
      · exact full
      · exact full.addMember _ _

theorem mergeRows_spec (publishable : overlay.Publishable) :
    ∃ dropped, overlay.base.Dropped dropped (ascending overlay.deletedHeaderHashes) ∧
      dropped.Written (overlay.base.mergeRows overlay.projected)
        overlay.projected.updatedHeaderNodesByHash.values := by
  have valid := publishable.valid
  have dropped := foldl_dropNode overlay.base (ascending overlay.deletedHeaderHashes)
    (nodup_ascending _) (by
      intro hash member
      exact valid.layered.deletedBase hash (mem_ascending.mp member))
  refine ⟨_, dropped, ?_⟩
  unfold mergeRows
  rw [projected_deleted]
  apply foldl_writeRow
  apply nodup_values_map
  intro hash node listed
  exact valid.coherent.keyed (listed_visible valid listed)

theorem mem_projected_values (valid : overlay.Invariant) (hash : Hash) (node : HeaderNode) :
    node ∈ overlay.projected.updatedHeaderNodesByHash.values ∧ node.hash = hash ↔
      overlay.projected.updatedHeaderNodesByHash.lookup hash = some node :=
  mem_values_keyed fun _ _ listed => valid.coherent.keyed (listed_visible valid listed)

theorem mergeRows_find (publishable : overlay.Publishable) (hash : Hash) :
    (overlay.base.mergeRows overlay.projected).nodes.lookup hash = overlay.headerNode hash := by
  have valid := publishable.valid
  obtain ⟨_, dropped, written⟩ := mergeRows_spec publishable
  apply ext
  intro node
  rw [written.find, dropped.find, mem_projected_values valid, ← projected_headerNode valid,
    headerNode_eq_some, projected_deleted, mem_ascending, projected_base]
  have listed : hash ∉ overlay.projected.updatedHeaderNodesByHash.values.map HeaderNode.hash ↔
      overlay.projected.updatedHeaderNodesByHash.lookup hash = none := by
    rw [List.mem_map, ← not_iff_not, not_not]
    simp only [mem_projected_values valid]
    exact (ne_none_iff_exists').symm
  rw [listed]
  cases staged : overlay.projected.updatedHeaderNodesByHash.lookup hash with
  | none => simp
  | some row =>
    have kept := (headerNode_eq_some.mp (listed_visible valid staged)).1
    simp [kept]

theorem mergeRows_heights (publishable : overlay.Publishable) (height : Nat) (hash : Hash) :
    hash ∈ (overlay.base.mergeRows overlay.projected).heights.members height ↔
      hash ∈ overlay.headerHashesAt height := by
  have valid := publishable.valid
  obtain ⟨_, dropped, written⟩ := mergeRows_spec publishable
  have shaped := valid.base.coherent.toShaped
  rw [mem_headerHashesAt shaped, written.heights, dropped.heights, mem_ascending]
  have stored : hash ∈ overlay.base.heights.members height ↔ _ := shaped.heights height hash
  rw [stored]
  change ((∃ node, overlay.base.nodes.lookup hash = some node ∧ node.height = height) ∧ _) ∨ _ ↔ _
  constructor
  · rintro (⟨⟨old, oldFound, rfl⟩, kept⟩ | ⟨_, node, member, rfl, rfl⟩)
    · have notDeleted : hash ∉ overlay.deletedHeaderHashes := fun gone =>
        kept ⟨gone, old, oldFound, rfl⟩
      obtain ⟨row, found⟩ := base_visible valid.layered notDeleted oldFound
      obtain ⟨_, _, same⟩ := publishable.replacement oldFound found
      exact ⟨row, found, same.height⟩
    · have listed := (mem_projected_values valid node.hash node).mp ⟨member, rfl⟩
      exact ⟨node, listed_visible valid listed, rfl⟩
  rintro ⟨node, found, rfl⟩
  obtain ⟨kept, visible⟩ := headerNode_eq_some.mp found
  cases oldFound : overlay.base.nodes.lookup hash with
  | some old =>
    obtain ⟨_, _, same⟩ := publishable.replacement oldFound found
    exact .inl ⟨⟨old, rfl, same.height.symm⟩, fun gone => kept gone.1⟩
  | none =>
    rcases visible with staged | ⟨_, stored⟩
    · have listed := (lookup_projected valid hash node).mpr
        ⟨staged, by simp [oldFound]⟩
      obtain ⟨member, keyed⟩ := (mem_projected_values valid hash node).mpr listed
      refine .inr ⟨?_, node, member, keyed, rfl⟩
      by_contra retained
      obtain ⟨row, rowFound⟩ := ne_none_iff_exists'.mp retained
      simp [((dropped.find hash row).mp rowFound).2] at oldFound
    · simp [oldFound] at stored

theorem merge_refreshDeltaTips (store : MemHeaderStore) (application : GraphOverlay) :
    store.merge application.refreshDeltaTips = { store.merge application with
      eligibleHeaderTips := application.refreshDeltaTips.eligibleHeaderTips } := rfl

section

variable (publishable : overlay.Publishable)
include publishable

theorem merge_children (parent child : Hash) :
    child ∈ (overlay.base.merge overlay.projected.refreshDeltaTips).children.members parent ↔
      child ∈ overlay.headerChildrenOf parent := by
  have valid := publishable.valid
  obtain ⟨_, dropped, written⟩ := mergeRows_spec publishable
  rw [merge_refreshDeltaTips]
  change child ∈ (extendAll _ (removeAll _ _)).members parent ↔ _
  rw [← publishable.headerChildrenOf, mem_headerChildrenOf, members_extendAll, members_removeAll,
    Finset.mem_union, Finset.mem_sdiff, written.children, dropped.children, mem_ascending,
    projected_headerNode valid, projected_deleted, projected_base]
  constructor
  · rintro (⟨⟨parentKept, linked⟩, unremoved⟩ | added)
    · obtain ⟨old, oldFound, notRoot, link⟩ := (valid.base.coherent.children parent child).mp linked
      obtain ⟨above, aboveFound, _⟩ := valid.base.coherent.parent oldFound notRoot
      rw [link] at aboveFound
      refine ⟨base_visible valid.layered parentKept aboveFound, ?_, .inl ⟨linked, unremoved⟩⟩
      intro gone
      exact unremoved ((mem_projected_removed valid parent child).mpr
        ⟨gone, notRoot, old, oldFound, link⟩)
    · obtain ⟨_, found, _, _, above⟩ :=
        (mem_projected_added valid parent child).mp added
      exact ⟨above, (headerNode_eq_some.mp found).1, .inr added⟩
  · rintro ⟨⟨above, aboveFound⟩, _, ⟨linked, unremoved⟩ | added⟩
    · exact .inl ⟨⟨(headerNode_eq_some.mp aboveFound).1, linked⟩, unremoved⟩
    · exact .inr added

theorem merge_view :
    (overlay.base.merge overlay.projected.refreshDeltaTips).view = overlay.view := by
  obtain ⟨_, dropped, written⟩ := mergeRows_spec publishable
  have find : (overlay.base.mergeRows overlay.projected).nodes.lookup = overlay.headerNode :=
    funext (mergeRows_find publishable)
  have hashes : (overlay.base.mergeRows overlay.projected).heights.members = overlay.headerHashesAt := by
    funext height
    ext hash
    exact mergeRows_heights publishable height hash
  have children : (overlay.base.merge overlay.projected.refreshDeltaTips).children.members =
      overlay.headerChildrenOf := by
    funext parent
    ext child
    exact merge_children publishable parent child
  have preferred : (overlay.base.mergeRows overlay.projected).preferredHeaderTip =
      overlay.base.preferredHeaderTip :=
    written.preferred.trans dropped.preferred
  rw [merge_refreshDeltaTips] at children ⊢
  rw [HeaderGraphView.mk.injEq]
  exact ⟨projected_finalized overlay, preferred, find, children, hashes, publishable.tips⟩

theorem merge_invariant :
    (overlay.base.merge overlay.projected.refreshDeltaTips).RepresentationInvariant := by
  obtain ⟨_, dropped, written⟩ := mergeRows_spec publishable
  have valid := publishable.valid
  have view := merge_view publishable
  refine ⟨view ▸ valid.coherent, view ▸ valid.bounded, ?_, ?_⟩
  · rw [merge_refreshDeltaTips]
    change NoEmpty (extendAll _ (removeAll _ _))
    rw [written.children]
    exact ((dropped.childrenFull valid.base.childrenFull).removeAll _).extendAll
      (noEmpty_grouped _)
  · exact written.heightsFull (dropped.heightsFull valid.base.heightsFull)

theorem merge_tombstones (hash : Hash) :
    (overlay.base.merge overlay.projected.refreshDeltaTips).consensusInvalidBodyTombstones.lookup
      hash = (overlay.tombstone hash).filter
        fun row => overlay.finalizedFrontier.height < row.height := by
  obtain ⟨_, dropped, written⟩ := mergeRows_spec publishable
  rw [merge_refreshDeltaTips]
  change ((_ ∪ _ : FiniteMap _ _).retain _).lookup hash = _
  rw [lookup_retain, written.tombstones, dropped.tombstones]
  have merged : (overlay.projected.newConsensusInvalidBodyTombstonesByHash ∪
      overlay.base.consensusInvalidBodyTombstones).lookup hash = overlay.tombstone hash := by
    have recorded := publishable.projected_tombstones hash
    unfold tombstone
    cases new : overlay.newConsensusInvalidBodyTombstonesByHash.lookup hash with
    | some row =>
      rw [new] at recorded
      exact (Finmap.lookup_union_left (Finmap.mem_of_lookup_eq_some recorded)).trans recorded
    | none =>
      rw [new] at recorded
      exact Finmap.lookup_union_right (Finmap.lookup_eq_none.mp recorded)
  rw [merged, projected_finalized]

theorem empty_delta_view (empty : overlay.delta.isEmpty = true) : overlay.base.view = overlay.view ∧
      ∀ hash, overlay.tombstone hash = overlay.base.consensusInvalidBodyTombstones.lookup hash := by
  have valid := publishable.valid
  simp only [GraphDelta.isEmpty, Bool.and_eq_true, List.isEmpty_iff, isNone_iff_eq_none]
    at empty
  obtain ⟨⟨⟨unmoved, unchanged⟩, undeleted⟩, unrecorded⟩ := empty
  have root : overlay.finalizedFrontier = overlay.base.finalizedFrontier := by
    by_contra moved
    simp [delta, moved] at unmoved
  have find (hash : Hash) : overlay.headerNode hash = overlay.base.nodes.lookup hash := by
    have noDeletion : overlay.deletedHeaderHashes = ∅ := (ascending_eq_nil _).mp undeleted
    refine headerNode_of_unlisted valid (by simp [noDeletion]) fun node listed => ?_
    have facts := (lookup_projected valid hash node).mp listed
    have member := (mem_deltaRows valid node).mpr ((staged_keyed valid facts.1).symm ▸ facts)
    simp [unchanged] at member
  constructor
  · refine valid.base.coherent.view_eq valid.coherent root.symm rfl ?_
    intro hash
    change (overlay.base.nodes.lookup hash).map _ = (overlay.headerNode hash).map _
    rw [find]
  intro hash
  cases new : overlay.newConsensusInvalidBodyTombstonesByHash.lookup hash with
  | none => simp [tombstone, new]
  | some row =>
    have member := mem_values.mpr ⟨hash, new⟩
    have nothing : overlay.newConsensusInvalidBodyTombstonesByHash.values = [] := unrecorded
    simp [nothing] at member

end

structure Applied (result : MemHeaderStore) (overlay : GraphOverlay) : Prop where
  valid : result.RepresentationInvariant
  nodes : ∀ hash, result.nodes.lookup hash = overlay.headerNode hash
  children : ∀ parent, result.headerChildren parent = overlay.headerChildren parent
  heights : ∀ height, result.headerHashesAtHeight height = overlay.headerHashesAtHeight height
  tips : result.eligibleHeaderTips = overlay.eligibleHeaderTips
  finalized : result.finalizedFrontier = overlay.finalizedFrontier
  preferred : result.preferredHeaderTip = overlay.base.preferredHeaderTip
  tombstones : ∀ hash, (result.consensusInvalidBodyTombstones.lookup hash).filter
      (fun row => overlay.finalizedFrontier.height < row.height) =
    (overlay.tombstone hash).filter fun row => overlay.finalizedFrontier.height < row.height

theorem Applied.of_view (valid : result.RepresentationInvariant) (view : result.view = overlay.view)
    (tombstones : ∀ hash, (result.consensusInvalidBodyTombstones.lookup hash).filter (fun row =>
      overlay.finalizedFrontier.height < row.height) = (overlay.tombstone hash).filter fun row =>
      overlay.finalizedFrontier.height < row.height) :
    result.Applied overlay where
  valid := valid
  nodes := fun hash => congrFun (congrArg HeaderGraphView.find view) hash
  children := fun parent =>
    congrArg ascending (congrFun (congrArg HeaderGraphView.childrenOf view) parent)
  heights := fun height =>
    congrArg ascending (congrFun (congrArg HeaderGraphView.hashesAt view) height)
  tips := congrArg HeaderGraphView.tips view
  finalized := congrArg HeaderGraphView.finalized view
  preferred := congrArg HeaderGraphView.preferred view
  tombstones := tombstones

theorem RepresentationInvariant.withRevision (valid : store.RepresentationInvariant)
    (revision : Nat) : { store with graphRevision := revision }.RepresentationInvariant :=
  { valid with }

theorem applyDelta_applied (publishable : overlay.Publishable)
    (rootFound : overlay.headerNode overlay.finalizedFrontier.hash = some root)
    (eligible : root.isEligible = true)
    (revision : overlay.delta.isEmpty = true ∨ overlay.base.graphRevision + 1 < revisionBound) :
    (overlay.base.applyDelta overlay.delta).1 = .ok () ∧
      (overlay.base.applyDelta overlay.delta).2.Applied overlay := by
  have rebuilt := publishable.fromDelta rootFound eligible
  simp only [applyDelta, rebuilt]
  by_cases empty : overlay.delta.isEmpty = true
  · simp only [empty, if_true, true_and]
    obtain ⟨view, tombstones⟩ := empty_delta_view publishable empty
    exact Applied.of_view publishable.valid.base view fun hash => by rw [tombstones]
  have room := revision.resolve_left empty
  rw [if_neg empty, if_pos room]
  have tombstones := merge_tombstones publishable
  have merged := (merge_invariant publishable).withRevision (overlay.base.graphRevision + 1)
  have view := merge_view publishable
  generalize overlay.base.merge overlay.projected.refreshDeltaTips = result
    at tombstones merged view
  refine ⟨rfl, Applied.of_view merged view fun hash => ?_⟩
  rw [tombstones, filter_filter]
  simp

theorem applyDelta_error {delta : GraphDelta} {error : GraphError}
    (failed : (store.applyDelta delta).1 = .error error) : (store.applyDelta delta).2 = store := by
  unfold applyDelta at failed ⊢
  split
  · rfl
  rename_i application rebuilt
  simp only [rebuilt] at failed
  split
  · rfl
  rename_i changed
  simp only [changed, if_false, Bool.false_eq_true] at failed
  split
  next room =>
    simp [room] at failed
  · rfl

end MemHeaderStore

end Zakura.HeaderChain
