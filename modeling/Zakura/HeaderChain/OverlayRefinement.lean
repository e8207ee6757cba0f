import Zakura.HeaderChain.OverlayStructure
import Zakura.HeaderChain.StoreRun

/-!
The overlay against the store: the same edits, run on an overlay and on a clone
of its base, keep giving the same answers and the same visible graph.
-/

namespace Zakura.HeaderChain

open FiniteMap GraphOverlay MemHeaderStore Option

variable {heightOf : Hash → Nat} {store : MemHeaderStore} {overlay : GraphOverlay}
  {Value State : Type} {wrap : Value → EditValue}

/-- Overlay and store side by side. Heights are a function of the hash, as they are when no two
headers share one; tombstones agree wherever a header can still be inserted or rejected. -/
structure Simulates (heightOf : Hash → Nat) (store : MemHeaderStore) (overlay : GraphOverlay) :
    Prop where
  storeValid : store.RepresentationInvariant
  overlayValid : overlay.Invariant
  view : overlay.view = store.view
  heights : ∀ hash node, overlay.headerNode hash = some node → heightOf hash = node.height
  parents : ∀ hash node, overlay.headerNode hash = some node →
    hash ≠ overlay.base.finalizedFrontier.hash → heightOf hash = heightOf node.parentHash + 1
  baseRoot : heightOf overlay.base.finalizedFrontier.hash ≤ overlay.finalizedFrontier.height
  tombstones : ∀ hash, overlay.finalizedFrontier.height < heightOf hash ∨
    hash = overlay.finalizedFrontier.hash →
      overlay.tombstone hash = store.consensusInvalidBodyTombstones.lookup hash
  tombstoneHeights : ∀ hash row, overlay.tombstone hash = some row → row.height = heightOf hash
  verdicts : ∀ hash row node, overlay.tombstone hash = some row →
    overlay.headerNode hash = some node → node.bodyValidationState.isConsensusInvalid = true

def OutcomesAgree {Value : Type} (heightOf : Hash → Nat) (stored : StoreOutcome Value)
    (staged : OverlayOutcome Value) : Prop :=
  stored.1 ≠ .error .revisionExhausted →
    Simulates heightOf stored.2 staged.2 ∧ staged.1 = stored.1

namespace Simulates

theorem outcome_eq {storeOutcome overlayOutcome : Except GraphError Value} {value : Value}
    (storeRun : storeOutcome = .ok value ∨ storeOutcome = .error .revisionExhausted)
    (revisions : storeOutcome ≠ .error .revisionExhausted) (overlayRun : overlayOutcome = .ok value) :
    overlayOutcome = storeOutcome := by
  rcases storeRun with run | exhausted
  · rw [run, overlayRun]
  · exact absurd exhausted revisions

section

variable (sim : Simulates heightOf store overlay)
include sim

theorem find (hash : Hash) : overlay.headerNode hash = store.nodes.lookup hash :=
  congrFun (congrArg HeaderGraphView.find sim.view) hash

theorem finalized : overlay.finalizedFrontier = store.finalizedFrontier :=
  congrArg HeaderGraphView.finalized sim.view

theorem preferred : overlay.base.preferredHeaderTip = store.preferredHeaderTip :=
  congrArg HeaderGraphView.preferred sim.view

end

variable {hash : Hash} {node parent old anchor under : HeaderNode} {result : MemHeaderStore}
  {staged : GraphOverlay} {body : BodyValidationState}

section

variable (sim : Simulates heightOf store overlay)
include sim

theorem above_root (found : overlay.headerNode hash = some node) :
    overlay.finalizedFrontier.height < heightOf hash ∨ hash = overlay.finalizedFrontier.hash := by
  by_cases atRoot : hash = overlay.finalizedFrontier.hash
  · exact .inr atRoot
  · left
    rw [sim.heights hash node found]
    exact sim.overlayValid.coherent.toShaped.above_root found atRoot

theorem tombstone_of_visible (found : overlay.headerNode hash = some node) :
    overlay.tombstone hash = store.consensusInvalidBodyTombstones.lookup hash :=
  sim.tombstones hash (sim.above_root found)

/-- A step that keeps the root, the verdicts, and the place and body of every row. -/
theorem moved (storeValid : result.RepresentationInvariant) (overlayValid : staged.Invariant)
    (storeRoot : result.finalizedFrontier = store.finalizedFrontier)
    (storePreferred : result.preferredHeaderTip = store.preferredHeaderTip)
    (storeTombstones : result.consensusInvalidBodyTombstones = store.consensusInvalidBodyTombstones)
    (origin : overlay.SameOrigin staged) (direct : SameDirect staged.headerNode result.nodes.lookup)
    (rows : ∀ {query row}, staged.headerNode query = some row →
      ∃ old, overlay.headerNode query = some old ∧ SameLinks row old ∧
        row.bodyValidationState = old.bodyValidationState) : Simulates heightOf result staged := by
  have tombstone := tombstone_congr origin.tombstones origin.base
  refine ⟨storeValid, overlayValid, ?_, ?_, ?_, ?_, ?_, ?_, ?_⟩
  · apply overlayValid.coherent.view_eq storeValid.coherent
    · exact origin.finalized.trans (sim.finalized.trans storeRoot.symm)
    · exact (congrArg preferredHeaderTip origin.base).trans
        (sim.preferred.trans storePreferred.symm)
    · exact direct
  · intro query row found
    obtain ⟨old, oldFound, same, _⟩ := rows found
    rw [sim.heights query old oldFound, same.height]
  · intro query row found notRoot
    obtain ⟨old, oldFound, same, _⟩ := rows found
    rw [sim.parents query old oldFound (origin.base ▸ notRoot), same.parentHash]
  · rw [origin.base, origin.finalized]
    exact sim.baseRoot
  · intro query inside
    rw [tombstone, storeTombstones]
    exact sim.tombstones query (origin.finalized ▸ inside)
  · intro query row recorded
    exact sim.tombstoneHeights query row (tombstone ▸ recorded)
  · intro query row other recorded found
    obtain ⟨old, oldFound, _, body⟩ := rows found
    rw [body]
    exact sim.verdicts query row old (tombstone ▸ recorded) oldFound

theorem rowEdited (rewrite : overlay.view.RowRewrite hash old node)
    (body : node.bodyValidationState = old.bodyValidationState)
    (storeEdited : store.RowEdited result hash node)
    (overlayEdited : overlay.RowEdited staged hash node) : Simulates heightOf result staged := by
  have overlayDirect := overlayEdited.direct
  refine sim.moved storeEdited.valid overlayEdited.valid storeEdited.frame.finalized
    storeEdited.frame.preferred storeEdited.frame.tombstones
    overlayEdited.rewritten.toSameOrigin ?_ ?_
  · rw [sim.view] at overlayDirect
    exact overlayDirect.trans storeEdited.direct.symm
  · intro query row found
    obtain ⟨former, formerFound, same, sameBody⟩ := rewrite.row_of_body body overlayDirect found
    exact ⟨former, formerFound, same.toSameLinks, sameBody⟩

theorem unchangedRow (stored : store.nodes.lookup hash = some node) :
    Simulates heightOf store (overlay.stage hash node) :=
  have found := (sim.find hash).trans stored
  sim.rowEdited ⟨found, rfl, rfl⟩ rfl (MemHeaderStore.RowEdited.refl sim.storeValid stored)
    (stage_same sim.overlayValid found).1

/-- A row is replaced and its descendants get their eligibility again, when it changed. -/
theorem finishEligibility {stored : StoreOutcome Bool} {changed : Bool}
    (rewrite : overlay.view.RowRewrite hash old node)
    (body : node.bodyValidationState = old.bodyValidationState)
    (unchanged : changed = false → old.isEligible = node.isEligible)
    (storeRun : store.RowEdited stored.2 hash node ∧ (stored.1 = .ok changed ∨ stored.1 = .error
      .revisionExhausted)) :
    OutcomesAgree heightOf stored ((overlay.stage hash node).finishEligibility hash changed) := by
  intro revisions
  obtain ⟨overlayEdited, overlayRun⟩ := finishEligibility_edited sim.overlayValid
    rewrite changed unchanged
  exact ⟨sim.rowEdited rewrite body storeRun.1 overlayEdited,
    outcome_eq storeRun.2 revisions overlayRun⟩

theorem addEligibilityReason (hash : Hash) (reason : EligibilityReason) : OutcomesAgree heightOf
      (store.addEligibilityReason hash reason) (overlay.addEligibilityReason hash reason) := by
  cases stored : store.nodes.lookup hash with
  | none =>
    simp only [MemHeaderStore.addEligibilityReason,
      GraphOverlay.addEligibilityReason, sim.find, stored]
    exact fun _ => ⟨sim, rfl⟩
  | some node =>
    have found := (sim.find hash).trans stored
    cases inserted : node.eligibility.tryInsertDirectReason hash reason with
    | error error =>
      simp only [MemHeaderStore.addEligibilityReason, stored, inserted,
        GraphOverlay.addEligibilityReason, found]
      exact fun _ => ⟨sim.unchangedRow stored, rfl⟩
    | ok outcome =>
      obtain ⟨changed, next⟩ := outcome
      obtain ⟨inherited, unchanged⟩ := tryInsertDirectReason_ok inserted
      have run : overlay.addEligibilityReason hash reason =
          (overlay.stage hash (node.withEligibility next)).finishEligibility hash changed := by
        simp [GraphOverlay.addEligibilityReason, found, inserted]
      rw [run]
      refine sim.finishEligibility ⟨found, rfl, inherited⟩ rfl ?_
        (addEligibilityReason_edited sim.storeValid stored inserted)
      intro same
      rw [unchanged same]
      rfl

theorem removeOperatorInvalidation (hash : Hash) (id : OperatorInvalidationId)
    (evidence : Option EvidenceId) : OutcomesAgree heightOf
      (store.removeOperatorInvalidation hash id evidence)
      (overlay.removeOperatorInvalidation hash id evidence) := by
  cases stored : store.nodes.lookup hash with
  | none =>
    simp only [MemHeaderStore.removeOperatorInvalidation,
      GraphOverlay.removeOperatorInvalidation, sim.find, stored]
    exact fun _ => ⟨sim, rfl⟩
  | some node =>
    have found := (sim.find hash).trans stored
    simp only [GraphOverlay.removeOperatorInvalidation, found]
    refine sim.finishEligibility ⟨found, rfl, rfl⟩ rfl ?_
      (removeOperatorInvalidation_edited sim.storeValid stored id evidence)
    intro same
    rw [withoutOperatorInvalidation_eq (by simpa using same)]
    rfl

theorem setHeaderValidationState (hash : Hash) (validation : HeaderValidationState) :
    OutcomesAgree heightOf (store.setHeaderValidationState hash validation)
      (overlay.setHeaderValidationState hash validation) := by
  cases stored : store.nodes.lookup hash with
  | none =>
    simp only [MemHeaderStore.setHeaderValidationState,
      GraphOverlay.setHeaderValidationState, sim.find, stored]
    exact fun _ => ⟨sim, rfl⟩
  | some node =>
    have found := (sim.find hash).trans stored
    simp only [GraphOverlay.setHeaderValidationState, found]
    refine sim.finishEligibility ⟨found, rfl, rfl⟩ rfl ?_
      (setHeaderValidationState_edited sim.storeValid stored validation)
    intro same
    obtain rfl : node.validation = validation := by simpa using same
    rfl

theorem recordAuxiliaryEvidenceDelivery (hash : Hash) (deliveryId : EvidenceId) :
    OutcomesAgree heightOf (store.recordAuxiliaryEvidenceDelivery hash deliveryId)
      (overlay.recordAuxiliaryEvidenceDelivery hash deliveryId) := by
  intro revisions
  cases stored : store.nodes.lookup hash with
  | none =>
    simp only [MemHeaderStore.recordAuxiliaryEvidenceDelivery,
      GraphOverlay.recordAuxiliaryEvidenceDelivery, sim.find, stored]
    exact ⟨sim, trivial⟩
  | some node =>
    have found := (sim.find hash).trans stored
    by_cases known : deliveryId ∈ node.auxDeliveryIds
    · simp only [MemHeaderStore.recordAuxiliaryEvidenceDelivery, stored,
        GraphOverlay.recordAuxiliaryEvidenceDelivery, found, known, if_true]
      exact ⟨sim.unchangedRow stored, trivial⟩
    have rewrite : overlay.view.RowRewrite hash node (node.withDelivery deliveryId) :=
      ⟨found, rfl, rfl⟩
    obtain ⟨storeEdited, storeRun⟩ :=
      recordAuxiliaryEvidenceDelivery_edited sim.storeValid stored known
    have run : overlay.recordAuxiliaryEvidenceDelivery hash deliveryId =
        (.ok true, overlay.stage hash (node.withDelivery deliveryId)) := by
      simp only [GraphOverlay.recordAuxiliaryEvidenceDelivery, found, known, if_false]
    rw [run]
    exact ⟨sim.rowEdited rewrite rfl storeEdited
      (stage_edited sim.overlayValid rewrite rfl),
      outcome_eq storeRun revisions rfl⟩

theorem bodyEdited (found : overlay.headerNode hash = some node)
    (noTombstone : overlay.tombstone hash = none)
    (storeEdited : store.BodyEdited result hash (node.withBody body))
    (overlayEdited : overlay.BodyEdited staged hash (node.withBody body)) :
    Simulates heightOf result staged := by
  have rewrite : overlay.view.RowRewrite hash node (node.withBody body) := ⟨found, rfl, rfl⟩
  have overlayDirect := overlayEdited.direct
  refine ⟨storeEdited.valid, overlayEdited.valid, ?_, ?_, ?_, ?_, ?_, ?_, ?_⟩
  · apply overlayEdited.valid.coherent.view_eq storeEdited.valid.coherent
    · exact overlayEdited.finalized.trans (sim.finalized.trans storeEdited.finalized.symm)
    · exact (congrArg preferredHeaderTip overlayEdited.base).trans
        (sim.preferred.trans storeEdited.preferred.symm)
    · rw [sim.view] at overlayDirect
      exact overlayDirect.trans storeEdited.direct.symm
  · intro query row rowFound
    obtain ⟨former, formerFound, same, _⟩ := rewrite.row overlayDirect rowFound
    rw [sim.heights query former formerFound, same.height]
  · intro query row rowFound notRoot
    obtain ⟨former, formerFound, same, _⟩ := rewrite.row overlayDirect rowFound
    rw [sim.parents query former formerFound (overlayEdited.base ▸ notRoot), same.parentHash]
  · rw [overlayEdited.base, overlayEdited.finalized]
    exact sim.baseRoot
  · intro query inside
    rw [overlayEdited.tombstone, storeEdited.tombstones, lookup_recordTombstone,
      sim.tombstones query (overlayEdited.finalized ▸ inside)]
  · intro query row recorded
    rw [overlayEdited.tombstone] at recorded
    split at recorded
    next written =>
      rw [(tombstone_eq_some recorded).1, written.1]
      exact (sim.heights hash node found).symm
    · exact sim.tombstoneHeights query row recorded
  intro query row other recorded otherFound
  obtain ⟨former, formerFound, _, sameBody⟩ := rewrite.row overlayDirect otherFound
  rw [overlayEdited.tombstone] at recorded
  rw [sameBody]
  split at recorded
  next written =>
    rw [if_pos written.1]
    exact (tombstone_eq_some recorded).2.1
  split
  next same =>
    simp [same, noTombstone] at recorded
  · exact sim.verdicts query row former recorded formerFound

theorem setBodyValidationState (hash : Hash) (body : BodyValidationState) : OutcomesAgree heightOf
      (store.setBodyValidationState hash body) (overlay.setBodyValidationState hash body) := by
  intro revisions
  cases stored : store.nodes.lookup hash with
  | none =>
    simp only [MemHeaderStore.setBodyValidationState,
      GraphOverlay.setBodyValidationState, sim.find, stored]
    exact ⟨sim, trivial⟩
  | some node =>
    have found := (sim.find hash).trans stored
    have tombstones := sim.tombstone_of_visible found
    cases recorded : store.consensusInvalidBodyTombstones.lookup hash with
    | some row =>
      simp only [MemHeaderStore.setBodyValidationState, stored, recorded,
        GraphOverlay.setBodyValidationState, found, tombstones, isSome_some, true_or, if_true]
      split <;> exact ⟨sim, rfl⟩
    | none =>
      rw [recorded] at tombstones
      cases verdict : node.bodyValidationState.isConsensusInvalid with
      | true =>
        have staged := sim.unchangedRow stored
        simp only [MemHeaderStore.setBodyValidationState, stored, recorded, verdict,
          GraphOverlay.setBodyValidationState, found, tombstones, or_true, if_true,
          isSome_none, Bool.false_eq_true, if_false]
        split <;> exact ⟨staged, rfl⟩
      | false =>
        obtain ⟨storeEdited, storeRun⟩ := MemHeaderStore.setBodyValidationState_edited
          sim.storeValid stored body (by simp [recorded, verdict])
        obtain ⟨overlayEdited, overlayRun⟩ := GraphOverlay.setBodyValidationState_edited
          sim.overlayValid found body tombstones verdict
        exact ⟨sim.bodyEdited found tombstones storeEdited overlayEdited,
          outcome_eq storeRun revisions overlayRun⟩

theorem finalityAdvanced {finalized : Frontier}
    (found : overlay.headerNode finalized.hash = some node)
    (height : node.height = finalized.height) (eligible : node.isEligible = true)
    (storeAdvanced : store.FinalityAdvanced result finalized)
    (overlayAdvanced : overlay.FinalityAdvanced staged finalized) :
    Simulates heightOf result staged := by
  have same (hash : Hash) : staged.headerNode hash = result.nodes.lookup hash := by
    have agree (row : HeaderNode) :
        staged.headerNode hash = some row ↔ result.nodes.lookup hash = some row := by
      rw [overlayAdvanced.find, storeAdvanced.find, sim.view, sim.find]
    exact ext agree
  have earlier {hash : Hash} {row : HeaderNode} (kept : staged.headerNode hash = some row) :
      overlay.headerNode hash = some row := ((overlayAdvanced.find hash row).mp kept).2
  have lower : overlay.finalizedFrontier.height ≤ finalized.height := by
    have bound := sim.overlayValid.coherent.toShaped.root_le found
    exact height ▸ bound
  have tombstone := tombstone_congr overlayAdvanced.tombstones overlayAdvanced.base
  have rootTombstone : overlay.tombstone finalized.hash = none := by
    by_contra recorded
    obtain ⟨row, rowFound⟩ := ne_none_iff_exists'.mp recorded
    have verdict := sim.verdicts finalized.hash row node rowFound found
    simp [((HeaderNode.isEligible_eq_true node).mp eligible).2.2.2] at verdict
  refine ⟨storeAdvanced.valid, overlayAdvanced.valid, ?_, ?_, ?_, ?_, ?_, ?_, ?_⟩
  · apply overlayAdvanced.valid.coherent.view_eq storeAdvanced.valid.coherent
    · exact overlayAdvanced.root.trans storeAdvanced.root.symm
    · exact (congrArg preferredHeaderTip overlayAdvanced.base).trans
        (sim.preferred.trans storeAdvanced.preferred.symm)
    · intro hash
      exact congrArg (Option.map HeaderNode.directRow) (same hash)
  · exact fun hash row kept => sim.heights hash row (earlier kept)
  · rw [overlayAdvanced.base]
    exact fun hash row kept => sim.parents hash row (earlier kept)
  · rw [overlayAdvanced.base, overlayAdvanced.root]
    exact sim.baseRoot.trans lower
  · intro hash inside
    rw [overlayAdvanced.root] at inside
    rw [tombstone, storeAdvanced.tombstones, lookup_retain]
    rcases inside with above | rfl
    · have agree := sim.tombstones hash (.inl (by omega))
      rw [agree]
      cases recorded : store.consensusInvalidBodyTombstones.lookup hash with
      | none => rfl
      | some row =>
        have rowHeight := sim.tombstoneHeights hash row (agree.trans recorded)
        have kept : finalized.height < row.height := rowHeight ▸ above
        simp [Option.filter, kept]
    · have agree := sim.tombstones finalized.hash (sim.above_root found)
      rw [rootTombstone] at agree ⊢
      simp [← agree]
  · intro hash row recorded
    exact sim.tombstoneHeights hash row (tombstone ▸ recorded)
  · intro hash row other recorded kept
    exact sim.verdicts hash row other (tombstone ▸ recorded) (earlier kept)

theorem advanceFinalizedFrontier (finalized : Frontier) :
    OutcomesAgree heightOf (store.advanceFinalizedFrontier finalized)
      (overlay.advanceFinalizedFrontier finalized) := by
  intro revisions
  cases stored : store.nodes.lookup finalized.hash with
  | none =>
    simp only [MemHeaderStore.advanceFinalizedFrontier,
      GraphOverlay.advanceFinalizedFrontier, sim.find, stored]
    exact ⟨sim, trivial⟩
  | some node =>
    have found := (sim.find finalized.hash).trans stored
    by_cases height : node.height = finalized.height
    · by_cases eligible : node.isEligible = true
      · have inherited := ((HeaderNode.isEligible_iff node).mp eligible).2
        obtain ⟨deleted, _, run, outside, overlayAdvanced⟩ :=
          advanceFinalizedFrontier_spec sim.overlayValid found height eligible
        have storeAdvanced :=
          (finalizedAt_advanced sim.storeValid stored height inherited).finish
            (store.finalityDeletions finalized.hash)
        have deletions : ascending deleted = store.finalityDeletions finalized.hash := by
          apply congrArg ascending
          ext hash
          rw [outside, sim.view, sim.find, Finset.mem_filter, mem_keys_iff,
            mem_retainedFrom sim.storeValid stored]
        rw [advanceFinalizedFrontier_eq sim.storeValid stored height eligible]
          at revisions ⊢
        rw [run]
        refine ⟨sim.finalityAdvanced found height eligible storeAdvanced overlayAdvanced, ?_⟩
        exact outcome_eq (finish_outcome _ _) revisions
          (congrArg Except.ok deletions)
      · simp only [MemHeaderStore.advanceFinalizedFrontier, stored,
          GraphOverlay.advanceFinalizedFrontier, found, height, ne_eq, not_true_eq_false,
          if_false, eligible, Bool.not_false, if_true]
        exact ⟨sim, trivial⟩
    · simp only [MemHeaderStore.advanceFinalizedFrontier, stored,
        GraphOverlay.advanceFinalizedFrontier, found, ne_eq, height, not_false_eq_true, if_true]
      exact ⟨sim, trivial⟩

theorem removeHeaderLeaf (notRoot : hash ≠ store.finalizedFrontier.hash) :
    OutcomesAgree heightOf (store.removeHeaderLeaf hash) (overlay.removeHeaderLeaf hash) := by
  intro revisions
  have children : overlay.headerChildrenOf hash = store.children.members hash :=
    congrFun (congrArg HeaderGraphView.childrenOf sim.view) hash
  cases stored : store.nodes.lookup hash with
  | none =>
    have hidden := (sim.find hash).trans stored
    have childless : overlay.headerChildren hash = [] := by
      simp [GraphOverlay.headerChildren, GraphOverlay.headerChildrenOf, hidden]
    simp only [MemHeaderStore.removeHeaderLeaf, stored, GraphOverlay.removeHeaderLeaf, childless,
      ne_eq, not_true_eq_false, if_false, GraphOverlay.deleteHeaderNode, hidden]
    exact ⟨sim, trivial⟩
  | some node =>
    have found := (sim.find hash).trans stored
    by_cases leaf : store.children.members hash = ∅
    · have childless : overlay.headerChildrenOf hash = ∅ := children.trans leaf
      have noChildren : overlay.headerChildren hash = [] := by
        simp [GraphOverlay.headerChildren, childless]
      obtain ⟨staged, run, frame⟩ := deleteHeaderNode_spec found
      have storeRun : store.removeHeaderLeaf hash = (store.withoutLeaf hash node).finish () := by
        simp [MemHeaderStore.removeHeaderLeaf, stored, leaf]
      have overlayRun : overlay.removeHeaderLeaf hash = (.ok (), staged) := by
        simp [GraphOverlay.removeHeaderLeaf, noChildren, run]
      rw [storeRun] at revisions
      rw [storeRun, overlayRun]
      refine ⟨?_, outcome_eq (finish_outcome _ _) revisions rfl⟩
      have storeFrame := finish_frame (store.withoutLeaf hash node) ()
      refine sim.moved ?_ ?_ storeFrame.finalized storeFrame.preferred storeFrame.tombstones
        frame.toSameOrigin ?_ ?_
      · exact finish_invariant _ ()
          (withoutLeaf_invariant sim.storeValid stored leaf notRoot)
      · exact frame.leaf_invariant sim.overlayValid found childless (sim.finalized ▸ notRoot)
      · intro query
        have view := finish_view (store.withoutLeaf hash node) ()
        have find := congrFun (congrArg HeaderGraphView.find view) query
        rw [frame.headerNode, sim.find, ← lookup_erase_ite]
        exact congrArg (Option.map HeaderNode.directRow) find.symm
      · intro query row kept
        rw [frame.headerNode, Option.ite_none_left_eq_some] at kept
        exact ⟨row, kept.2, ⟨rfl, rfl, rfl⟩, rfl⟩
    · have someChild : overlay.headerChildren hash ≠ [] := by
        rw [GraphOverlay.headerChildren, ne_eq, ascending_eq_nil, children]
        exact leaf
      have nonempty : (store.children.members hash).Nonempty :=
        Finset.nonempty_iff_ne_empty.mpr leaf
      simp only [MemHeaderStore.removeHeaderLeaf, stored, nonempty, if_true,
        GraphOverlay.removeHeaderLeaf, ne_eq, someChild, not_false_eq_true]
      exact ⟨sim, trivial⟩

theorem root_stored (rootFound : overlay.headerNode overlay.finalizedFrontier.hash = some anchor) :
    store.nodes.lookup store.finalizedFrontier.hash = some anchor := by
  rwa [← sim.find, ← sim.finalized]

theorem rebased (rootFound : overlay.headerNode overlay.finalizedFrontier.hash = some anchor) :
    Simulates heightOf ((store.rebaseAll anchor.workCoordinate).finish ()).2
      (overlay.rebaseAll anchor.workCoordinate) := by
  have stored := sim.root_stored rootFound
  obtain ⟨rewritten, overlayRebased⟩ :=
    rebaseAll_spec sim.overlayValid anchor.workCoordinate
  have storeRebased := rebaseAll_rebased store anchor.workCoordinate
  have storeFrame := (rebaseAll_frame store anchor.workCoordinate).trans
    (finish_frame _ ())
  have view : (overlay.rebaseAll anchor.workCoordinate).view =
      (store.rebaseAll anchor.workCoordinate).view :=
    overlayRebased.view_eq (sim.view ▸ storeRebased)
      ((congrArg preferredHeaderTip rewritten.base).trans sim.preferred)
  refine sim.moved (finish_invariant _ ()
      (rebaseAll_invariant sim.storeValid stored))
    (rebaseAll_invariant sim.overlayValid rootFound) storeFrame.finalized
    storeFrame.preferred storeFrame.tombstones rewritten.toSameOrigin ?_ ?_
  · rw [← finish_view _ ()] at view
    intro query
    exact congrArg (fun shown => (shown.find query).map HeaderNode.directRow) view
  · intro query row found
    obtain ⟨old, oldFound, rfl⟩ := overlayRebased.found found
    exact ⟨old, oldFound, rebaseNode_links _ _ old, rebaseNode_body _ _ old⟩

theorem childCoordinate (parent : HeaderNode) (parentHash : Hash)
    (validation : HeaderValidationState) (blockWork : Nat) :
    OutcomesAgree heightOf (store.childCoordinate parent parentHash validation blockWork)
      (overlay.childCoordinate parent parentHash validation blockWork) := by
  intro revisions
  obtain ⟨anchor, rootFound, _⟩ := sim.overlayValid.coherent.root
  have stored := sim.root_stored rootFound
  unfold MemHeaderStore.childCoordinate at revisions ⊢
  unfold GraphOverlay.childCoordinate
  rw [MemHeaderStore.rebase_eq sim.storeValid stored] at revisions ⊢
  rw [GraphOverlay.rebase_eq sim.overlayValid rootFound]
  cases direct : parent.workCoordinate.checkedAdd blockWork with
  | ok coordinate => exact ⟨sim, rfl⟩
  | error error =>
    simp only [direct] at revisions ⊢
    by_cases overflow : error = .overflow ∧ validation = .valid
    · simp only [if_pos overflow] at revisions ⊢
      have moved := sim.rebased rootFound
      rcases finish_cases (store.rebaseAll anchor.workCoordinate) () with
        run | run
      · rw [run] at moved revisions ⊢
        have find := moved.find parentHash
        cases parentFound : (store.rebaseAll anchor.workCoordinate).nodes.lookup parentHash with
        | none =>
          simp only [find, parentFound]
          exact ⟨moved, trivial⟩
        | some parent =>
          simp only [find, parentFound]
          cases parent.workCoordinate.checkedAdd blockWork <;> exact ⟨moved, rfl⟩
      · rw [run] at revisions
        exact absurd rfl revisions
    · simp only [if_neg overflow]
      exact ⟨sim, trivial⟩

section

variable (attachment : overlay.view.Attachment node parent)
  (heightLink : heightOf node.hash = heightOf node.parentHash + 1)
include attachment heightLink

theorem attachAllowed : overlay.AttachAllowed node.hash := by
  have shaped := sim.overlayValid.coherent.toShaped
  have parentHeight := sim.heights _ _ attachment.parentFound
  have aboveRoot : overlay.finalizedFrontier.height ≤ parent.height :=
    shaped.root_le attachment.parentFound
  have baseRoot := sim.baseRoot
  constructor
  · intro same
    rw [same] at heightLink
    omega
  intro moved root rootFound link
  have rootHeight := sim.heights _ _ rootFound
  have rootLink := sim.parents _ _ rootFound moved
  have finalizedHeight : root.height = overlay.finalizedFrontier.height :=
    shaped.root_height rootFound
  rw [link] at rootLink
  omega

theorem attached (bound : node.height ≤ Height.maximum)
    (verdict : ∀ row, overlay.tombstone node.hash = some row →
      node.bodyValidationState.isConsensusInvalid = true) (value : InsertResult) :
    Simulates heightOf ((store.attach node).finish value).2 (overlay.attach node) := by
  have allowed := sim.attachAllowed attachment heightLink
  have overlayValid := attach_invariant sim.overlayValid allowed attachment bound
  have storeValid := attach_invariant sim.storeValid (sim.view ▸ attachment) bound
  have frame := attach_frame overlay node
  have storeFrame := finish_frame (store.attach node) value
  have find := attach_headerNode overlay node
  have tombstone := tombstone_congr frame.tombstones frame.base
  refine ⟨finish_invariant _ value storeValid, overlayValid, ?_, ?_, ?_, ?_, ?_, ?_, ?_⟩
  · rw [finish_view]
    refine overlayValid.coherent.view_eq storeValid.coherent ?_ ?_ ?_
    · exact frame.finalized.trans sim.finalized
    · exact (congrArg preferredHeaderTip frame.base).trans sim.preferred
    intro query
    have storeFind := (attach_attached store node).find query
    change ((overlay.attach node).headerNode query).map _ = _
    rw [find, storeFind, sim.find]
    rfl
  · intro query row found
    rw [find, ite_eq_some] at found
    rcases found with ⟨rfl, rfl⟩ | ⟨_, found⟩
    · rw [heightLink, sim.heights _ _ attachment.parentFound, attachment.height]
    · exact sim.heights query row found
  · intro query row found notRoot
    rw [find, ite_eq_some] at found
    rcases found with ⟨rfl, rfl⟩ | ⟨_, found⟩
    · exact heightLink
    · exact sim.parents query row found (frame.base ▸ notRoot)
  · rw [frame.base, frame.finalized]
    exact sim.baseRoot
  · intro query inside
    rw [tombstone, storeFrame.tombstones]
    exact sim.tombstones query (frame.finalized ▸ inside)
  · intro query row recorded
    exact sim.tombstoneHeights query row (tombstone ▸ recorded)
  · intro query row other recorded found
    rw [tombstone] at recorded
    rw [find, ite_eq_some] at found
    rcases found with ⟨rfl, rfl⟩ | ⟨_, found⟩
    · exact verdict row recorded
    · exact sim.verdicts query row other recorded found

end

theorem insertAttached [HeaderHasher] {header : Header} {height blockWork : Nat}
    {coordinate : WorkCoordinate} {validation : HeaderValidationState}
    {reasons : Finset EligibilityReason} {value : InsertResult}
    (heightLink : heightOf header.hash = heightOf header.previousBlockHash + 1)
    (bound : height ≤ Height.maximum) :
    let row (tombstone : Option ConsensusInvalidBodyTombstone) :=
      HeaderNode.ofHeader header parent height blockWork coordinate validation reasons
        ((tombstone.map ConsensusInvalidBodyTombstone.bodyState).getD body)
    (∀ tombstone, store.view.Attachment (row tombstone) under) → OutcomesAgree heightOf
      ((store.attach (row (store.consensusInvalidBodyTombstones.lookup header.hash))).finish value)
      (.ok value, overlay.attach (row (overlay.tombstone header.hash))) := by
  intro row attachment revisions
  rw [← sim.view] at attachment
  have parentHeight := sim.heights _ _ (attachment none).parentFound
  have rootHeight := sim.overlayValid.coherent.toShaped.root_le (attachment none).parentFound
  have above : overlay.finalizedFrontier.height < heightOf header.hash := by
    change heightOf header.previousBlockHash = _ at parentHeight
    change overlay.finalizedFrontier.height ≤ _ at rootHeight
    omega
  have tombstone := sim.tombstones header.hash (.inl above)
  rw [← tombstone] at revisions ⊢
  refine ⟨sim.attached (attachment _) heightLink bound ?_ value,
    outcome_eq (finish_outcome _ value) revisions rfl⟩
  intro found recorded
  change overlay.tombstone header.hash = some found at recorded
  simp only [row, HeaderNode.ofHeader, recorded, map_some, getD_some]
  rfl

end

theorem insert [HeaderHasher] (sim : Simulates heightOf store overlay) (header : Header)
    (validation : HeaderValidationState) (directReasons : List EligibilityReason)
    (body : BodyValidationState)
    (heightLink : store.nodes.lookup header.hash = none →
      heightOf header.hash = heightOf header.previousBlockHash + 1)
    (revisions : (store.insert header validation directReasons body).1 ≠
      .error .revisionExhausted) :
    Simulates heightOf (store.insert header validation directReasons body).2
        (overlay.insert header validation directReasons body).2 ∧
      ((header.difficultyThreshold.toWork = none → store.nodes.lookup header.hash = none) →
        (overlay.insert header validation directReasons body).1 =
          (store.insert header validation directReasons body).1) := by
  unfold MemHeaderStore.insert at revisions ⊢
  unfold GraphOverlay.insert
  rw [sim.find header.hash, sim.find header.previousBlockHash]
  cases work : header.difficultyThreshold.toWork with
  | none =>
    cases store.nodes.lookup header.hash with
    | none => exact ⟨sim, fun _ => rfl⟩
    | some existing =>
      refine ⟨?_, fun absent => nomatch absent rfl⟩
      dsimp only
      split <;> exact sim
  | some blockWork =>
    cases present : store.nodes.lookup header.hash with
    | some existing =>
      dsimp only
      split <;> exact ⟨sim, fun _ => rfl⟩
    | none =>
      cases parentFound : store.nodes.lookup header.previousBlockHash with
      | none => exact ⟨sim, fun _ => rfl⟩
      | some parent =>
        cases next : Height.next parent.height with
        | none =>
          simp only [next]
          exact ⟨sim, fun _ => trivial⟩
        | some height =>
          simp only [present, work, parentFound, next] at revisions ⊢
          have coordinated := childCoordinate_coordinated sim.storeValid parent
            header.previousBlockHash validation blockWork
          have both := sim.childCoordinate parent header.previousBlockHash validation
            blockWork
          rcases storeRun : store.childCoordinate parent header.previousBlockHash validation
            blockWork with ⟨outcome, moved⟩
          rcases overlayRun : overlay.childCoordinate parent header.previousBlockHash
            validation blockWork with ⟨_, _⟩
          rw [storeRun] at coordinated both revisions
          rw [overlayRun] at both
          cases outcome with
          | error error =>
            obtain ⟨movedSim, same⟩ := both (by simpa using revisions)
            subst same
            exact ⟨movedSim, fun _ => rfl⟩
          | ok coordinate =>
            obtain ⟨movedSim, same⟩ := both (by simp)
            subst same
            obtain ⟨successor, bound⟩ := Height.next_eq_some.mp next
            rw [← successor] at bound
            obtain ⟨under, underFound, sum⟩ :=
              childCoordinate_ok parentFound storeRun
            have attachment (inserted : BodyValidationState) : moved.view.Attachment
                (HeaderNode.ofHeader header parent height blockWork coordinate validation
                  directReasons.toFinset inserted) under :=
              coordinated.rows.attachment present parentFound next underFound sum
                directReasons.toFinset inserted
            simp only
            by_cases many : maxDirectEligibilityReasons < directReasons.toFinset.card
            · simp only [if_pos many]
              exact ⟨movedSim, fun _ => trivial⟩
            simp only [if_neg many] at revisions ⊢
            obtain ⟨attachedSim, done⟩ := movedSim.insertAttached (heightLink present) bound
              (fun tombstone => attachment _) revisions
            exact ⟨attachedSim, fun _ => done⟩

end Simulates

/-- Heights are a function of the hash, in the graph and in the tombstones, and a retained row
with a tombstone carries the verdict itself. -/
structure MemHeaderStore.HeightsKnown (store : MemHeaderStore) (heightOf : Hash → Nat) :
    Prop where
  rows : ∀ hash node, store.nodes.lookup hash = some node → heightOf hash = node.height
  tombstones : ∀ hash row, store.consensusInvalidBodyTombstones.lookup hash = some row →
    row.height = heightOf hash
  verdicts : ∀ hash row node, store.consensusInvalidBodyTombstones.lookup hash = some row →
    store.nodes.lookup hash = some node → node.bodyValidationState.isConsensusInvalid = true

def HeaderGraphEdit.HeightKnown [HeaderHasher] (edit : HeaderGraphEdit) (heightOf : Hash → Nat)
    (store : MemHeaderStore) : Prop :=
  match edit with
  | .insertHeader header _ _ _ => store.nodes.lookup header.hash = none →
    heightOf header.hash = heightOf header.previousBlockHash + 1
  | _ => True

/-- Not the insertion of a retained header that has no work: the overlay looks at the work first
and rejects it, the store finds the header first. -/
def HeaderGraphEdit.NotWorkless [HeaderHasher] (edit : HeaderGraphEdit) (store : MemHeaderStore) :
    Prop :=
  match edit with
  | .insertHeader header _ _ _ =>
    header.difficultyThreshold.toWork = none → store.nodes.lookup header.hash = none
  | _ => True

namespace Simulates

theorem new (valid : store.RepresentationInvariant) (known : store.HeightsKnown heightOf) :
    Simulates heightOf store (GraphOverlay.new store) := by
  have shaped := valid.coherent.toShaped
  have tombstone (hash : Hash) : (GraphOverlay.new store).tombstone hash =
      store.consensusInvalidBodyTombstones.lookup hash := by
    simp [GraphOverlay.tombstone, GraphOverlay.new]
  refine ⟨valid, GraphOverlay.new_invariant valid, new_view valid, ?_, ?_, ?_, ?_, ?_, ?_⟩
  · intro hash node found
    exact known.rows hash node found
  · intro hash node found notRoot
    obtain ⟨parent, parentFound, height⟩ := shaped.parent found notRoot
    rw [known.rows hash node found, known.rows _ parent parentFound, height]
  · obtain ⟨root, found, height⟩ := shaped.root
    exact ((known.rows _ root found).trans height).le
  · exact fun hash _ => tombstone hash
  · intro hash row recorded
    exact known.tombstones hash row (tombstone hash ▸ recorded)
  · intro hash row node recorded found
    exact known.verdicts hash row node (tombstone hash ▸ recorded) found

theorem unexhausted {outcome : Except GraphError Value × State}
    (revisions : (editOutcome wrap outcome).1 ≠ .error .revisionExhausted) :
    outcome.1 ≠ .error .revisionExhausted := by
  intro exhausted
  exact revisions (by simp [editOutcome, exhausted, Except.map])

theorem wrapped {stored : StoreOutcome Value} {staged : OverlayOutcome Value} {side : Prop}
    (both : OutcomesAgree heightOf stored staged)
    (revisions : (editOutcome wrap stored).1 ≠ .error .revisionExhausted) :
    Simulates heightOf stored.2 staged.2 ∧
      (side → (editOutcome wrap staged).1 = (editOutcome wrap stored).1) := by
  obtain ⟨sim, same⟩ := both (unexhausted revisions)
  exact ⟨sim, fun _ => congrArg (Except.map wrap) same⟩

theorem applyEdit [HeaderHasher] (sim : Simulates heightOf store overlay) (edit : HeaderGraphEdit)
    (known : edit.HeightKnown heightOf store)
    (keepsRoot : edit.KeepsRoot store.finalizedFrontier.hash)
    (revisions : (store.applyEdit edit).1 ≠ .error .revisionExhausted) :
    Simulates heightOf (store.applyEdit edit).2 (overlay.applyEdit edit).2 ∧
      (edit.NotWorkless store → (overlay.applyEdit edit).1 = (store.applyEdit edit).1) := by
  cases edit with
  | insertHeader header validation directReasons body =>
    obtain ⟨next, same⟩ := sim.insert header validation directReasons body known
      (unexhausted revisions)
    exact ⟨next, fun holds => congrArg (Except.map _) (same holds)⟩
  | addEligibilityReason hash reason =>
    exact wrapped (sim.addEligibilityReason hash reason) revisions
  | removeOperatorInvalidation hash id evidence =>
    exact wrapped (sim.removeOperatorInvalidation hash id evidence) revisions
  | setBodyValidationState hash body =>
    exact wrapped (sim.setBodyValidationState hash body) revisions
  | setHeaderValidationState hash validation =>
    exact wrapped (sim.setHeaderValidationState hash validation) revisions
  | recordAuxiliaryEvidenceDelivery hash deliveryId =>
    exact wrapped (sim.recordAuxiliaryEvidenceDelivery hash deliveryId) revisions
  | advanceFinalizedFrontier finalized =>
    exact wrapped (sim.advanceFinalizedFrontier finalized) revisions
  | removeHeaderLeaf hash =>
    exact wrapped (sim.removeHeaderLeaf keepsRoot) revisions

end Simulates

structure SameObservations (store : MemHeaderStore) (overlay : GraphOverlay) : Prop where
  headerNode : ∀ hash, overlay.headerNode hash = store.nodes.lookup hash
  headerChildren : ∀ hash, overlay.headerChildren hash = store.headerChildren hash
  headerHashesAtHeight : ∀ height,
    overlay.headerHashesAtHeight height = store.headerHashesAtHeight height
  headerNodeCount : overlay.headerNodeCount = store.headerNodeCount
  finalizedFrontier : overlay.finalizedFrontier = store.finalizedFrontier
  eligibleHeaderTips : overlay.eligibleHeaderTips = store.eligibleHeaderTips
  headerAncestor : ∀ descendant height,
    overlay.headerAncestor descendant height = store.headerAncestor descendant height
  headerChainScore : ∀ hash, overlay.headerChainScore hash = store.headerChainScore hash
  selectBestHeaderChain : overlay.selectBestHeaderChain = store.selectBestHeaderChain

theorem Simulates.observations (sim : Simulates heightOf store overlay) :
    SameObservations store overlay := by
  have find : overlay.headerNode = store.nodes.lookup := congrArg HeaderGraphView.find sim.view
  have children : overlay.headerChildrenOf = store.children.members :=
    congrArg HeaderGraphView.childrenOf sim.view
  have hashes : overlay.headerHashesAt = store.heights.members :=
    congrArg HeaderGraphView.hashesAt sim.view
  have tips : overlay.eligibleHeaderTips = store.eligibleHeaderTips :=
    congrArg HeaderGraphView.tips sim.view
  constructor
  · exact sim.find
  · intro hash
    rw [GraphOverlay.headerChildren, MemHeaderStore.headerChildren, children]
  · intro height
    rw [GraphOverlay.headerHashesAtHeight, MemHeaderStore.headerHashesAtHeight, hashes]
  · have retained : overlay.retainedHashes = store.nodes.keys := by
      ext hash
      rw [mem_retainedHashes, sim.find, mem_keys_iff]
    rw [sim.overlayValid.layered.count, retained]
    rfl
  · exact sim.finalized
  · exact tips
  · intro descendant height
    rw [GraphOverlay.headerAncestor, MemHeaderStore.headerAncestor, find]
  · intro hash
    rw [GraphOverlay.headerChainScore, MemHeaderStore.headerChainScore, find, sim.finalized]
  · rw [GraphOverlay.selectBestHeaderChain, MemHeaderStore.selectBestHeaderChain, find,
      sim.finalized, sim.preferred, tips]

/-- The edits the refinement speaks of: known heights, no removal of the root, and a store whose
revision counter has not run out. -/
def MemHeaderStore.EditsAllowed [HeaderHasher] (heightOf : Hash → Nat) (store : MemHeaderStore) :
    List HeaderGraphEdit → Prop
  | [] => True
  | edit :: rest =>
    edit.HeightKnown heightOf store ∧ edit.KeepsRoot store.finalizedFrontier.hash ∧
      (store.applyEdit edit).1 ≠ .error .revisionExhausted ∧
      (store.applyEdit edit).2.EditsAllowed heightOf rest

def EditsAgree [HeaderHasher] (store : MemHeaderStore) (overlay : GraphOverlay) :
    List HeaderGraphEdit → Prop
  | [] => True
  | edit :: rest =>
    (edit.NotWorkless store → (overlay.applyEdit edit).1 = (store.applyEdit edit).1) ∧
      SameObservations (store.applyEdit edit).2 (overlay.applyEdit edit).2 ∧
      EditsAgree (store.applyEdit edit).2 (overlay.applyEdit edit).2 rest

theorem Simulates.editsAgree [HeaderHasher] (sim : Simulates heightOf store overlay)
    (edits : List HeaderGraphEdit) (allowed : store.EditsAllowed heightOf edits) :
    EditsAgree store overlay edits := by
  induction edits generalizing store overlay with
  | nil => trivial
  | cons edit rest ih =>
    obtain ⟨known, keepsRoot, revisions, later⟩ := allowed
    obtain ⟨next, outcome⟩ := sim.applyEdit edit known keepsRoot revisions
    exact ⟨outcome, next.observations, ih next later⟩

/-- An overlay over a well formed store refines it, along every sequence of edits. -/
theorem GraphOverlay.refines_store [HeaderHasher] {heightOf : Hash → Nat} {store : MemHeaderStore}
    (valid : store.RepresentationInvariant) (known : store.HeightsKnown heightOf)
    (edits : List HeaderGraphEdit) (allowed : store.EditsAllowed heightOf edits) :
    EditsAgree store (new store) edits :=
  (Simulates.new valid known).editsAgree edits allowed

instance [HeaderHasher] (edit : HeaderGraphEdit) (heightOf : Hash → Nat) (store : MemHeaderStore) :
    Decidable (edit.HeightKnown heightOf store) :=
  match edit with
  | .insertHeader .. => inferInstanceAs (Decidable (_ = none → _ = _))
  | .addEligibilityReason .. | .removeOperatorInvalidation .. | .setBodyValidationState ..
  | .setHeaderValidationState .. | .recordAuxiliaryEvidenceDelivery ..
  | .advanceFinalizedFrontier .. | .removeHeaderLeaf .. => .isTrue trivial

instance editsAllowedDecidable [HeaderHasher] (heightOf : Hash → Nat) :
    (edits : List HeaderGraphEdit) → (store : MemHeaderStore) →
      Decidable (store.EditsAllowed heightOf edits)
  | [], _ => .isTrue trivial
  | edit :: rest, store =>
    have := editsAllowedDecidable heightOf rest (store.applyEdit edit).2
    inferInstanceAs (Decidable (edit.HeightKnown heightOf store ∧
      edit.KeepsRoot store.finalizedFrontier.hash ∧ _ ∧ _))

def regtestHeightOf (hash : Hash) : Nat :=
  if hash = regtestGenesisHash then 0
  else if hash = regtestFirstHash ∨ hash = regtestSiblingHash then 1
  else 2

def regtestEdits : List HeaderGraphEdit :=
  [.insertHeader regtestFirst .valid [] .unknown, .insertHeader regtestSecond .valid [] .unknown,
    .insertHeader regtestSibling .valid [] .unknown,
    .setBodyValidationState regtestSecondHash (.consensusInvalid ⟨1⟩ "rule"),
    .setBodyValidationState regtestSecondHash .unknown,
    .advanceFinalizedFrontier { height := 1, hash := regtestFirstHash },
    .removeHeaderLeaf regtestSecondHash,
    .insertHeader regtestSecond .valid [] .unknown]

theorem regtestStore_heightsKnown : regtestStore.HeightsKnown regtestHeightOf := by
  constructor
  · intro hash node found
    obtain ⟨rfl, rfl⟩ := rootedAt_only found
    rfl
  · simp [regtestStore, rootedAt]
  · simp [regtestStore, rootedAt]

theorem regtest_refines_store :
    letI := regtestHasher
    regtestStore.RepresentationInvariant ∧ regtestStore.HeightsKnown regtestHeightOf ∧
      regtestStore.EditsAllowed regtestHeightOf regtestEdits ∧
      EditsAgree regtestStore (new regtestStore) regtestEdits := by
  let := regtestHasher
  have allowed : regtestStore.EditsAllowed regtestHeightOf regtestEdits := by decide +kernel
  exact ⟨regtestStore_invariant, regtestStore_heightsKnown, allowed,
    refines_store regtestStore_invariant regtestStore_heightsKnown _ allowed⟩

def worklessGenesis : Header := { regtestGenesis with difficultyThreshold := ⟨0⟩ }

def worklessGenesisHash : Hash := ⟨0x4eb0dad4e40582e13216ff8df120e4ae220d4c373fca1cc49419fb1c5be1cc04⟩

@[reducible] def worklessHasher : HeaderHasher :=
  tableHasher [(worklessGenesis, worklessGenesisHash), (regtestFirst, regtestFirstHash)]

def worklessStore : MemHeaderStore :=
  rootedAt { height := 0, hash := worklessGenesisHash } worklessGenesis 17 0

/-- Three ways in which overlay and clone part: a retained root without work, a retained row with
a verdict its body does not carry, and a verdict recorded below the height of its header. -/
theorem overlay_diverges :
    letI := worklessHasher
    let reinsert := HeaderGraphEdit.insertHeader worklessGenesis .valid [] .unknown
    let insertFirst := HeaderGraphEdit.insertHeader regtestFirst .valid [] .unknown
    let verify := HeaderGraphEdit.setBodyValidationState regtestFirstHash (.verified ⟨2⟩)
    let toFirst := HeaderGraphEdit.advanceFinalizedFrontier { height := 1, hash := regtestFirstHash }
    let toGenesis := HeaderGraphEdit.advanceFinalizedFrontier
      { height := 0, hash := regtestGenesisHash }
    let contradicted := verdictOnFirst regtestFirstStore 1
    let buried := verdictOnFirst regtestStore 0
    (worklessStore.RepresentationInvariant ∧
        (worklessStore.applyEdit reinsert).1 =
          .ok (.insertion (.alreadyPresent { height := 0, hash := worklessGenesisHash })) ∧
        ((new worklessStore).applyEdit reinsert).1 =
          .error (.invalidHeaderNode worklessGenesisHash .canonicalBlockWork)) ∧
      (contradicted.RepresentationInvariant ∧
        ((contradicted.applyEdit toFirst).2.applyEdit verify).1 = .ok (.changed true) ∧
        (((new contradicted).applyEdit toFirst).2.applyEdit verify).1 =
          .error (.permanentBodyInvalidity regtestFirstHash)) ∧
      buried.RepresentationInvariant ∧
        (((buried.applyEdit toGenesis).2.applyEdit insertFirst).2.nodes.lookup
          regtestFirstHash).map HeaderNode.bodyValidationState = some .unknown ∧
        ((((new buried).applyEdit toGenesis).2.applyEdit insertFirst).2.headerNode
          regtestFirstHash).map HeaderNode.bodyValidationState =
            some (.consensusInvalid ⟨1⟩ "rule") := by
  refine ⟨⟨?_, ?_, ?_⟩, ⟨?_, ?_, ?_⟩, ⟨?_, ?_, ?_⟩⟩
  · exact rootedAt_invariant _ _ _ _
  · decide +kernel
  · decide +kernel
  · exact verdictOnFirst_invariant regtestFirstStore_invariant 1
  · decide +kernel
  · decide +kernel
  · exact verdictOnFirst_invariant regtestStore_invariant 0
  · decide +kernel
  · decide +kernel

end Zakura.HeaderChain
