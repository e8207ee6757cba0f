import Zakura.HeaderChain.OverlayCore
import Zakura.HeaderChain.StoreInvariant

/-!
What the staged layers of an overlay mean: which rows are visible, which child
edges were added to or removed from the store below, and how each staged
change moves the visible graph.
-/

namespace Zakura.HeaderChain

open FiniteMap Option Finset HeaderGraphView

variable {overlay result middle initial current : GraphOverlay} {store : MemHeaderStore}
  {node old : HeaderNode} {hash : Hash}

namespace GraphOverlay

theorem headerNode_eq_some : overlay.headerNode hash = some node ↔
      hash ∉ overlay.deletedHeaderHashes ∧
        (overlay.updatedHeaderNodesByHash.lookup hash = some node ∨
          overlay.updatedHeaderNodesByHash.lookup hash = none ∧
            overlay.base.nodes.lookup hash = some node) := by
  unfold headerNode
  split
  · simp_all
  · split <;> simp_all

theorem mem_retainedHashes :
    hash ∈ overlay.retainedHashes ↔ ∃ node, overlay.headerNode hash = some node := by
  simp only [retainedHashes, mem_sdiff, mem_union, mem_keys_iff, headerNode_eq_some]
  constructor
  · rintro ⟨⟨node, found⟩ | ⟨node, found⟩, visible⟩
    · cases updated : overlay.updatedHeaderNodesByHash.lookup hash with
      | none => exact ⟨node, visible, .inr ⟨rfl, found⟩⟩
      | some other => exact ⟨other, visible, .inl rfl⟩
    · exact ⟨node, visible, .inl found⟩
  · rintro ⟨node, visible, found | ⟨_, found⟩⟩
    · exact ⟨.inr ⟨node, found⟩, visible⟩
    · exact ⟨.inl ⟨node, found⟩, visible⟩

theorem mem_headerHashesAt (shaped : overlay.base.view.Shaped) (height : Nat) (hash : Hash) :
    hash ∈ overlay.headerHashesAt height ↔
      ∃ node, overlay.headerNode hash = some node ∧ node.height = height := by
  have stored : hash ∈ overlay.base.heights.members height ↔
      ∃ node, overlay.base.nodes.lookup hash = some node ∧ node.height = height :=
    shaped.heights height hash
  simp only [headerHashesAt, mem_union, mem_filter, stored, headerNode_eq_some,
    mem_keys_iff, any_eq_true, decide_eq_true_eq]
  cases updated : overlay.updatedHeaderNodesByHash.lookup hash with
  | none =>
    simp
    tauto
  | some other => simp

theorem mem_headerChildrenOf (overlay : GraphOverlay) (parent child : Hash) :
    child ∈ overlay.headerChildrenOf parent ↔ (∃ node, overlay.headerNode parent = some node) ∧
        child ∉ overlay.deletedHeaderHashes ∧ (child ∈ overlay.base.children.members parent ∧
            child ∉ overlay.removedHeaderChildren.members parent ∨
          child ∈ overlay.addedHeaderChildren.members parent) := by
  unfold headerChildrenOf
  cases overlay.headerNode parent with
  | none => simp
  | some node =>
    simp only [isNone_some, Bool.false_eq_true, if_false, mem_union,
      mem_filter, some.injEq, exists_eq', true_and]
    tauto

def VisibleUnder (overlay : GraphOverlay) (parent child : Hash) : Prop :=
  ∃ node, overlay.headerNode child = some node ∧ node.parentHash = parent

/-- The staged layers against the store below. Added edges are new ones, removed edges are those
of the store that no visible row has. -/
structure Layered (overlay : GraphOverlay) : Prop where
  unstaged : ∀ hash ∈ overlay.deletedHeaderHashes,
    overlay.updatedHeaderNodesByHash.lookup hash = none
  deletedBase : ∀ hash ∈ overlay.deletedHeaderHashes,
    ∃ node, overlay.base.nodes.lookup hash = some node
  added : ∀ parent child, child ∈ overlay.addedHeaderChildren.members parent →
    overlay.VisibleUnder parent child ∧ child ∉ overlay.base.children.members parent ∧
      child ≠ overlay.base.finalizedFrontier.hash
  removed : ∀ parent child, child ∈ overlay.removedHeaderChildren.members parent ↔
    child ∈ overlay.base.children.members parent ∧ ¬overlay.VisibleUnder parent child
  count : overlay.headerNodeCount = overlay.retainedHashes.card

structure Invariant (overlay : GraphOverlay) : Prop where
  coherent : overlay.view.Coherent
  bounded : overlay.view.Bounded
  base : overlay.base.RepresentationInvariant
  layered : overlay.Layered

/-- What no change of the rows touches. -/
structure SameOrigin (overlay result : GraphOverlay) : Prop where
  base : result.base = overlay.base
  baseRevision : result.baseRevision = overlay.baseRevision
  finalized : result.finalizedFrontier = overlay.finalizedFrontier
  tombstones : result.newConsensusInvalidBodyTombstonesByHash =
    overlay.newConsensusInvalidBodyTombstonesByHash

theorem SameOrigin.trans {first last : GraphOverlay} (upper : first.SameOrigin middle)
    (lower : middle.SameOrigin last) : first.SameOrigin last where
  base := lower.base.trans upper.base
  baseRevision := lower.baseRevision.trans upper.baseRevision
  finalized := lower.finalized.trans upper.finalized
  tombstones := lower.tombstones.trans upper.tombstones

structure SameFrame (overlay result : GraphOverlay) : Prop extends SameOrigin overlay result where
  deleted : result.deletedHeaderHashes = overlay.deletedHeaderHashes
  retired : result.retiredInsertedNodes = overlay.retiredInsertedNodes
  added : result.addedHeaderChildren = overlay.addedHeaderChildren
  removed : result.removedHeaderChildren = overlay.removedHeaderChildren
  count : result.headerNodeCount = overlay.headerNodeCount

theorem SameFrame.refl (overlay : GraphOverlay) : overlay.SameFrame overlay :=
  ⟨⟨rfl, rfl, rfl, rfl⟩, rfl, rfl, rfl, rfl, rfl⟩

theorem SameFrame.trans {first last : GraphOverlay} (upper : first.SameFrame middle)
    (lower : middle.SameFrame last) : first.SameFrame last where
  toSameOrigin := upper.toSameOrigin.trans lower.toSameOrigin
  deleted := lower.deleted.trans upper.deleted
  retired := lower.retired.trans upper.retired
  added := lower.added.trans upper.added
  removed := lower.removed.trans upper.removed
  count := lower.count.trans upper.count

structure Rewritten (overlay result : GraphOverlay) : Prop extends SameFrame overlay result where
  unstaged : (∀ hash ∈ overlay.deletedHeaderHashes,
      overlay.updatedHeaderNodesByHash.lookup hash = none) →
    ∀ hash ∈ overlay.deletedHeaderHashes, result.updatedHeaderNodesByHash.lookup hash = none
  links : ∀ hash, (result.headerNode hash).map HeaderNode.parentHash =
    (overlay.headerNode hash).map HeaderNode.parentHash

theorem Rewritten.refl (overlay : GraphOverlay) : overlay.Rewritten overlay where
  toSameFrame := SameFrame.refl overlay
  unstaged := id
  links := fun _ => rfl

theorem Rewritten.trans (upper : overlay.Rewritten middle) (lower : middle.Rewritten result) :
    overlay.Rewritten result where
  toSameFrame := upper.toSameFrame.trans lower.toSameFrame
  unstaged := by
    intro clean
    rw [← upper.deleted]
    exact lower.unstaged (upper.deleted ▸ upper.unstaged clean)
  links := fun hash => (lower.links hash).trans (upper.links hash)

section

variable (rewritten : overlay.Rewritten result)
include rewritten

theorem Rewritten.visible (hash : Hash) :
    (∃ node, result.headerNode hash = some node) ↔ ∃ node, overlay.headerNode hash = some node := by
  have links := congrArg isSome (rewritten.links hash)
  rw [isSome_map, isSome_map] at links
  rw [← isSome_iff_exists, links, isSome_iff_exists]

theorem Rewritten.visibleUnder (parent child : Hash) :
    result.VisibleUnder parent child ↔ overlay.VisibleUnder parent child := by
  unfold VisibleUnder
  rw [← map_eq_some_iff, rewritten.links, map_eq_some_iff]

theorem Rewritten.layered (layered : overlay.Layered) : result.Layered where
  unstaged := by
    rw [rewritten.deleted]
    exact rewritten.unstaged layered.unstaged
  deletedBase := by
    rw [rewritten.deleted, rewritten.base]
    exact layered.deletedBase
  added := by
    intro parent child
    rw [rewritten.added, rewritten.base, rewritten.visibleUnder]
    exact layered.added parent child
  removed := by
    intro parent child
    rw [rewritten.removed, rewritten.base, rewritten.visibleUnder]
    exact layered.removed parent child
  count := by
    have same : result.retainedHashes = overlay.retainedHashes := by
      ext hash
      rw [mem_retainedHashes, mem_retainedHashes, rewritten.visible]
    rw [rewritten.count, same, layered.count]

theorem Rewritten.headerChildrenOf : result.headerChildrenOf = overlay.headerChildrenOf := by
  funext parent
  ext child
  rw [mem_headerChildrenOf, mem_headerChildrenOf, rewritten.visible, rewritten.deleted,
    rewritten.base, rewritten.removed, rewritten.added]

theorem Rewritten.headerHashesAt (shaped : overlay.base.view.Shaped)
    (heights : ∀ hash, (result.headerNode hash).map HeaderNode.height =
      (overlay.headerNode hash).map HeaderNode.height) :
    result.headerHashesAt = overlay.headerHashesAt := by
  funext height
  ext hash
  rw [mem_headerHashesAt shaped, mem_headerHashesAt (rewritten.base ▸ shaped)]
  have same := heights hash
  simp [← map_eq_some_iff, same]

end

theorem stage_headerNode (found : overlay.headerNode hash = some old) (query : Hash) :
    (overlay.stage hash node).headerNode query =
      if query = hash then some node else overlay.headerNode query := by
  have visible := (headerNode_eq_some.mp found).1
  simp only [headerNode, stage, lookup_insert_ite]
  by_cases same : query = hash
  · subst query
    simp [visible]
  · simp [same]

theorem stage_rewritten (found : overlay.headerNode hash = some old)
    (link : node.parentHash = old.parentHash) : overlay.Rewritten (overlay.stage hash node) where
  toSameFrame := ⟨⟨rfl, rfl, rfl, rfl⟩, rfl, rfl, rfl, rfl, rfl⟩
  unstaged := by
    intro clean other member
    have visible := (headerNode_eq_some.mp found).1
    simp only [stage, lookup_insert_ite]
    split
    next same =>
      exact absurd (same ▸ member) visible
    · exact clean other member
  links := by
    intro query
    rw [stage_headerNode found]
    split
    · subst query
      simp [found, link]
    · rfl

theorem nodeTable_lawful : nodeTable.Lawful where
  get_put := fun node query found => stage_headerNode found query
  children_put := by
    intro overlay hash old node query found
    have visible : overlay.headerNode hash = some old := found
    have same : (overlay.stage hash node).headerChildrenOf query =
        overlay.headerChildrenOf query := by
      ext child
      rw [mem_headerChildrenOf, mem_headerChildrenOf, stage_headerNode visible]
      by_cases atHash : query = hash
      · subst atHash
        simp only [if_true, some.injEq, exists_eq', visible]
        rfl
      · simp only [atHash, if_false]
        rfl
    exact congrArg ascending same

theorem nodeTable_presents (overlay : GraphOverlay) : nodeTable.Presents overlay overlay.view where
  get := rfl
  mem_children := fun _ _ => mem_ascending
  children_nodup := fun _ => nodup_ascending _

theorem stage_view (shaped : overlay.base.view.Shaped)
    (rewrite : overlay.view.RowRewrite hash old node) :
    (overlay.stage hash node).view = overlay.view.putRow hash node := by
  have found : overlay.headerNode hash = some old := rewrite.found
  have rewritten : overlay.Rewritten (overlay.stage hash node) :=
    stage_rewritten found rewrite.same.parentHash
  have find : (overlay.stage hash node).headerNode =
      fun query => if query = hash then some node else overlay.headerNode query := by
    funext query
    exact stage_headerNode found query
  have hashes := rewritten.headerHashesAt shaped (find ▸ rewrite.sameRows.height)
  simp only [view, putRow, find, rewritten.headerChildrenOf, hashes]
  rfl

theorem writes_rewritten (writes : nodeTable.Writes initial result) :
    initial.Rewritten result ∧ result.eligibleHeaderTips = initial.eligibleHeaderTips ∧
      result.workCoordinatesRebased = initial.workCoordinatesRebased := by
  induction writes with
  | none => exact ⟨Rewritten.refl initial, rfl, rfl⟩
  | put inherited _ found ih =>
    exact ⟨ih.1.trans (stage_rewritten found rfl), ih.2.1, ih.2.2⟩

theorem refreshTips_rewritten (overlay : GraphOverlay) (affected : List Hash) :
    overlay.Rewritten (overlay.refreshTips affected) where
  toSameFrame := ⟨⟨rfl, rfl, rfl, rfl⟩, rfl, rfl, rfl, rfl, rfl⟩
  unstaged := id
  links := fun _ => rfl

structure RowEdited (overlay result : GraphOverlay) (hash : Hash) (node : HeaderNode) : Prop where
  valid : result.Invariant
  rewritten : overlay.Rewritten result
  rebased : result.workCoordinatesRebased = overlay.workCoordinatesRebased
  direct : SameDirect result.headerNode (overlay.view.putRow hash node).find

theorem Rewritten.invariant (rewritten : overlay.Rewritten result) (valid : overlay.Invariant)
    (coherent : result.view.Coherent) (bounded : result.view.Bounded) : result.Invariant where
  coherent := coherent
  bounded := bounded
  base := rewritten.base ▸ valid.base
  layered := rewritten.layered valid.layered

section

variable (valid : overlay.Invariant)
include valid

theorem stage_edited (rewrite : overlay.view.RowRewrite hash old node)
    (same : old.isEligible = node.isEligible) :
    overlay.RowEdited (overlay.stage hash node) hash node := by
  have view := stage_view valid.base.coherent.toShaped rewrite
  have rewritten : overlay.Rewritten (overlay.stage hash node) :=
    stage_rewritten rewrite.found rewrite.same.parentHash
  refine ⟨rewritten.invariant valid ?_ ?_, rewritten, rfl, ?_⟩
  · rw [view]
    exact rewrite.coherent valid.coherent same
  · rw [view]
    exact valid.bounded.of_sameRows rfl rewrite.sameRows
  · intro query
    change ((overlay.stage hash node).view.find query).map _ = _
    rw [view]

theorem stage_same (found : overlay.headerNode hash = some node) :
    overlay.RowEdited (overlay.stage hash node) hash node ∧
      (overlay.stage hash node).view = overlay.view := by
  have rewrite : overlay.view.RowRewrite hash node node := ⟨found, rfl, rfl⟩
  refine ⟨stage_edited valid rewrite rfl, ?_⟩
  rw [stage_view valid.base.coherent.toShaped rewrite, putRow_same rewrite.found]

theorem recomputeDescendantEligibility_spec (rewrite : overlay.view.RowRewrite hash old node) :
    ∃ result, (overlay.stage hash node).recomputeDescendantEligibility hash = (.ok (), result) ∧
      overlay.RowEdited result hash node := by
  have view := stage_view valid.base.coherent.toShaped rewrite
  have staged : overlay.Rewritten (overlay.stage hash node) :=
    stage_rewritten rewrite.found rewrite.same.parentHash
  have presents := nodeTable_presents (overlay.stage hash node)
  rw [view] at presents
  have found : (overlay.stage hash node).headerNode hash = some node := by
    rw [stage_headerNode rewrite.found, if_pos rfl]
  obtain ⟨affected, result, run, isHash, isParent, done⟩ := rewrite.loop valid.coherent
    nodeTable_lawful presents (fun found => mem_retainedHashes.mpr ⟨_, found⟩) true
  obtain ⟨written, tips, rebased⟩ := writes_rewritten done.writes
  have rewritten : overlay.Rewritten (result.refreshTips (ascending affected)) :=
    (staged.trans written).trans (refreshTips_rewritten result _)
  have rows : SameRows result.headerNode overlay.headerNode :=
    done.direct.sameRows.trans rewrite.sameRows
  have hashes := rewritten.headerHashesAt valid.base.coherent.toShaped rows.height
  refine ⟨result.refreshTips (ascending affected), ?_, ?_, rewritten, rebased, done.direct⟩
  · have loop : recomputeLoop nodeTable true (overlay.stage hash node).retainedHashes.card
        (overlay.stage hash node) {hash, node.parentHash}
        ((overlay.stage hash node).headerChildren hash) = (.ok affected, result) := run
    simp [recomputeDescendantEligibility, found, loop]
  refine rewritten.invariant valid ?_ (valid.bounded.of_sameRows rewritten.finalized rows)
  apply rewrite.recomputed valid.coherent done isHash isParent rewritten.finalized rfl
    rewritten.headerChildrenOf hashes
  intro query
  refine (mem_refresh_ascending _ _ _ query).trans ?_
  rw [tips]
  rfl

theorem finishEligibility_edited (rewrite : overlay.view.RowRewrite hash old node) (changed : Bool)
    (unchanged : changed = false → old.isEligible = node.isEligible) :
    overlay.RowEdited ((overlay.stage hash node).finishEligibility hash changed).2 hash node ∧
      ((overlay.stage hash node).finishEligibility hash changed).1 = .ok changed := by
  cases changed with
  | false => exact ⟨stage_edited valid rewrite (unchanged rfl), rfl⟩
  | true =>
    obtain ⟨_, run, edited⟩ := recomputeDescendantEligibility_spec valid rewrite
    simp only [finishEligibility, if_true, run]
    exact ⟨edited, trivial⟩

end

structure BodyEdited (overlay result : GraphOverlay) (hash : Hash) (node : HeaderNode) : Prop where
  valid : result.Invariant
  base : result.base = overlay.base
  baseRevision : result.baseRevision = overlay.baseRevision
  finalized : result.finalizedFrontier = overlay.finalizedFrontier
  deleted : result.deletedHeaderHashes = overlay.deletedHeaderHashes
  retired : result.retiredInsertedNodes = overlay.retiredInsertedNodes
  rebased : result.workCoordinatesRebased = overlay.workCoordinatesRebased
  tombstones : result.newConsensusInvalidBodyTombstonesByHash =
    recordTombstone overlay.newConsensusInvalidBodyTombstonesByHash hash node.height
      node.bodyValidationState
  direct : SameDirect result.headerNode (overlay.view.putRow hash node).find

theorem tombstone_congr (tombstones : result.newConsensusInvalidBodyTombstonesByHash =
      overlay.newConsensusInvalidBodyTombstonesByHash) (base : result.base = overlay.base) :
    result.tombstone = overlay.tombstone := by
  funext query
  simp [tombstone, tombstones, base]

theorem BodyEdited.tombstone (edited : overlay.BodyEdited result hash node) (query : Hash) :
    result.tombstone query =
      if query = hash ∧ (node.bodyValidationState.tombstone hash node.height).isSome then
        node.bodyValidationState.tombstone hash node.height else overlay.tombstone query := by
  simp only [GraphOverlay.tombstone, edited.tombstones, edited.base, lookup_recordTombstone]
  by_cases written : query = hash ∧ (node.bodyValidationState.tombstone hash node.height).isSome
  · obtain ⟨_, verdict⟩ := isSome_iff_exists.mp written.2
    rw [if_pos written, if_pos written, verdict]
  · rw [if_neg written, if_neg written]

theorem Invariant.withTombstones (valid : overlay.Invariant)
    (tombstones : FiniteMap Hash ConsensusInvalidBodyTombstone) : GraphOverlay.Invariant
      { overlay with newConsensusInvalidBodyTombstonesByHash := tombstones } :=
  { valid with layered := { valid.layered with } }

theorem setBodyValidationState_edited (valid : overlay.Invariant)
    (found : overlay.headerNode hash = some node) (body : BodyValidationState)
    (noTombstone : overlay.tombstone hash = none)
    (undecided : node.bodyValidationState.isConsensusInvalid = false) :
    overlay.BodyEdited (overlay.setBodyValidationState hash body).2 hash (node.withBody body) ∧
      (overlay.setBodyValidationState hash body).1 =
        .ok (decide (node.bodyValidationState ≠ body)) := by
  have rewrite : overlay.view.RowRewrite hash node (node.withBody body) := ⟨found, rfl, rfl⟩
  obtain ⟨staged, run, edited⟩ : ∃ staged,
      (if node.isEligible ≠ (node.withBody body).isEligible then
        (overlay.stage hash (node.withBody body)).recomputeDescendantEligibility hash
      else (.ok (), overlay.stage hash (node.withBody body))) = (.ok (), staged) ∧
      overlay.RowEdited staged hash (node.withBody body) := by
    split
    · exact recomputeDescendantEligibility_spec valid rewrite
    next same =>
      exact ⟨_, rfl, stage_edited valid rewrite (not_not.mp same)⟩
  simp only [setBodyValidationState, found, noTombstone, undecided, run]
  refine ⟨⟨edited.valid.withTombstones _, edited.rewritten.base, edited.rewritten.baseRevision,
    edited.rewritten.finalized, edited.rewritten.deleted, edited.rewritten.retired, edited.rebased,
    ?_, edited.direct⟩, rfl⟩
  simp only [isSome_none, Bool.false_eq_true, if_false, edited.rewritten.tombstones]
  rfl

section

variable {anchor : HeaderNode}

theorem mem_headerNodes :
    node ∈ overlay.headerNodes ↔ ∃ hash, overlay.headerNode hash = some node := by
  simp only [headerNodes, List.mem_filterMap, mem_ascending, mem_retainedHashes]
  constructor
  · rintro ⟨hash, _, found⟩
    exact ⟨hash, found⟩
  · rintro ⟨hash, found⟩
    exact ⟨hash, ⟨node, found⟩, found⟩

theorem stageEach_spec {convert : HeaderNode → HeaderNode}
    (links : ∀ node, (convert node).parentHash = node.parentHash) (nodes : List HeaderNode)
    (keyed : ∀ node ∈ nodes, overlay.headerNode node.hash = some node)
    (rewritten : overlay.Rewritten current) : overlay.Rewritten (stageEach convert current nodes) ∧
      (stageEach convert current nodes).eligibleHeaderTips = current.eligibleHeaderTips ∧
      ∀ query, (stageEach convert current nodes).headerNode query =
        if query ∈ nodes.map HeaderNode.hash then (overlay.headerNode query).map convert
        else current.headerNode query := by
  induction nodes generalizing current with
  | nil => exact ⟨rewritten, rfl, fun _ => by simp [stageEach]⟩
  | cons node rest ih =>
    have visible := keyed node (by simp)
    obtain ⟨row, rowFound⟩ := (rewritten.visible node.hash).mpr ⟨node, visible⟩
    have sameLink : row.parentHash = node.parentHash := by
      have same := rewritten.links node.hash
      simpa [rowFound, visible] using same
    have staged : overlay.Rewritten (current.stage node.hash (convert node)) :=
      rewritten.trans (stage_rewritten rowFound ((links node).trans sameLink.symm))
    obtain ⟨done, tips, find⟩ := ih (fun other member => keyed other (by simp [member])) staged
    refine ⟨done, tips, ?_⟩
    intro query
    refine (find query).trans ?_
    rw [stage_headerNode rowFound]
    by_cases later : query ∈ rest.map HeaderNode.hash
    · simp [later]
    by_cases same : query = node.hash
    · subst query
      simp [later, visible]
    · simp [later, same]

theorem rebaseAll_spec (valid : overlay.Invariant) (coordinate : WorkCoordinate) :
    overlay.Rewritten (overlay.rebaseAll coordinate) ∧
      overlay.view.Rebased (overlay.rebaseAll coordinate).view coordinate := by
  have keyed : ∀ node ∈ overlay.headerNodes, overlay.headerNode node.hash = some node := by
    intro node member
    obtain ⟨hash, found⟩ := mem_headerNodes.mp member
    rw [valid.coherent.keyed found]
    exact found
  obtain ⟨rewritten, tips, find⟩ := stageEach_spec
    (fun node => (rebaseNode_links overlay.finalizedFrontier.hash coordinate node).parentHash)
    overlay.headerNodes keyed (Rewritten.refl overlay)
  have rebasedFind (query : Hash) : (overlay.rebaseAll coordinate).headerNode query =
      (overlay.headerNode query).map (rebaseNode overlay.finalizedFrontier.hash coordinate) := by
    refine (find query).trans ?_
    split
    · rfl
    rename_i absent
    cases found : overlay.headerNode query with
    | none => rfl
    | some node =>
      refine absurd (List.mem_map.mpr ⟨node, ?_, valid.coherent.keyed found⟩) absent
      exact mem_headerNodes.mpr ⟨query, found⟩
  have whole : overlay.Rewritten (overlay.rebaseAll coordinate) :=
    ⟨{ rewritten with }, rewritten.unstaged, rewritten.links⟩
  refine ⟨whole, whole.finalized, rebasedFind, whole.headerChildrenOf, ?_, tips⟩
  apply whole.headerHashesAt valid.base.coherent.toShaped
  intro query
  rw [rebasedFind]
  cases overlay.headerNode query with
  | none => rfl
  | some node => simp [(rebaseNode_links _ _ node).height]

section

variable (valid : overlay.Invariant)
  (rootFound : overlay.headerNode overlay.finalizedFrontier.hash = some anchor)
include valid rootFound

theorem rebaseAll_invariant : (overlay.rebaseAll anchor.workCoordinate).Invariant := by
  obtain ⟨rewritten, rebased⟩ := rebaseAll_spec valid anchor.workCoordinate
  exact rewritten.invariant valid (valid.coherent.rebase rootFound rebased)
    (valid.bounded.rebase rebased)

theorem rebase_eq : overlay.rebaseWorkCoordinatesToFinalizedFrontier =
      (.ok (), overlay.rebaseAll anchor.workCoordinate) := by
  have none := firstRebaseError_eq_none overlay.finalizedFrontier.hash anchor.workCoordinate
    overlay.headerNodes (by
      intro node member
      obtain ⟨hash, found⟩ := mem_headerNodes.mp member
      exact ⟨_, valid.coherent.rebasedCoordinate_eq rootFound found⟩)
  simp [rebaseWorkCoordinatesToFinalizedFrontier, rootFound, none]

end

end

theorem new_headerNode (store : MemHeaderStore) (hash : Hash) :
    (new store).headerNode hash = store.nodes.lookup hash := by
  simp [headerNode, new]

theorem new_view (valid : store.RepresentationInvariant) : (new store).view = store.view := by
  have shaped := valid.coherent.toShaped
  have find : (new store).headerNode = store.nodes.lookup := funext (new_headerNode store)
  have children : (new store).headerChildrenOf = store.children.members := by
    funext parent
    ext child
    rw [mem_headerChildrenOf, new_headerNode]
    simp only [new, members_empty, notMem_empty, not_false_eq_true, and_true, or_false,
      true_and, and_iff_right_iff_imp]
    intro member
    exact (shaped.edge_found member).1
  have hashes : (new store).headerHashesAt = store.heights.members := by
    funext height
    ext hash
    rw [mem_headerHashesAt shaped, new_headerNode]
    exact (shaped.heights height hash).symm
  rw [view, find, children, hashes]
  rfl

theorem new_layered (store : MemHeaderStore) (shaped : store.view.Shaped) :
    (new store).Layered := by
  constructor
  · simp [new]
  · simp [new]
  · simp [new]
  · intro parent child
    simp only [new, members_empty, notMem_empty, false_iff, not_and, not_not]
    intro member
    obtain ⟨node, found, _, link⟩ := (shaped.children parent child).mp member
    exact ⟨node, (new_headerNode store child).trans found, link⟩
  have retained : (new store).retainedHashes = store.nodes.keys := by
    ext hash
    rw [mem_retainedHashes, new_headerNode, mem_keys_iff]
  rw [retained]
  rfl

theorem new_invariant (valid : store.RepresentationInvariant) : (new store).Invariant where
  coherent := new_view valid ▸ valid.coherent
  bounded := new_view valid ▸ valid.bounded
  base := valid
  layered := new_layered store valid.coherent.toShaped

end GraphOverlay

end Zakura.HeaderChain
