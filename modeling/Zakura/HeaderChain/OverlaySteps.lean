import Zakura.HeaderChain.OverlayStructure

/-!
What each edit can do to an overlay. Everything that holds along a sequence of
edits is derived from these cases.
-/

namespace Zakura.HeaderChain

open FiniteMap

namespace GraphOverlay

variable {overlay result : GraphOverlay} {anchor node parent : HeaderNode}

inductive StateEdited (overlay result : GraphOverlay) : Prop
  | unchanged (same : result = overlay)
  | row {hash old node} (rewrite : overlay.view.RowRewrite hash old node)
      (body : node.bodyValidationState = old.bodyValidationState)
      (edited : overlay.RowEdited result hash node)
  | body {hash node} (state : BodyValidationState) (found : overlay.headerNode hash = some node)
      (noTombstone : overlay.tombstone hash = none)
      (undecided : node.bodyValidationState.isConsensusInvalid = false)
      (edited : overlay.BodyEdited result hash (node.withBody state))

theorem StateEdited.restaged (valid : overlay.Invariant) {hash : Hash}
    (found : overlay.headerNode hash = some node) : overlay.StateEdited (overlay.stage hash node) :=
  .row ⟨found, rfl, rfl⟩ rfl (stage_same valid found).1

section

variable (valid : overlay.Invariant) (hash : Hash)
include valid hash

theorem addEligibilityReason_stateEdited (reason : EligibilityReason) :
    overlay.StateEdited (overlay.addEligibilityReason hash reason).2 := by
  unfold addEligibilityReason
  split
  · exact .unchanged rfl
  rename_i node found
  split
  · exact .restaged valid found
  rename_i changed next inserted
  obtain ⟨inherited, unchanged⟩ := MemHeaderStore.tryInsertDirectReason_ok inserted
  have rewrite : overlay.view.RowRewrite hash node (node.withEligibility next) :=
    ⟨found, rfl, inherited⟩
  refine .row rewrite rfl (finishEligibility_edited valid rewrite changed ?_).1
  intro same
  rw [unchanged same]
  rfl

theorem removeOperatorInvalidation_stateEdited (id : OperatorInvalidationId)
    (evidence : Option EvidenceId) :
    overlay.StateEdited (overlay.removeOperatorInvalidation hash id evidence).2 := by
  unfold removeOperatorInvalidation
  split
  · exact .unchanged rfl
  rename_i node found
  have rewrite : overlay.view.RowRewrite hash node
      (node.withDirectReasons (node.eligibility.withoutOperatorInvalidation id evidence)) :=
    ⟨found, rfl, rfl⟩
  refine .row rewrite rfl (finishEligibility_edited valid rewrite _ ?_).1
  intro same
  rw [MemHeaderStore.withoutOperatorInvalidation_eq (by simpa using same)]
  rfl

theorem setHeaderValidationState_stateEdited (validation : HeaderValidationState) :
    overlay.StateEdited (overlay.setHeaderValidationState hash validation).2 := by
  unfold setHeaderValidationState
  split
  · exact .unchanged rfl
  rename_i node found
  have rewrite : overlay.view.RowRewrite hash node (node.withValidation validation) :=
    ⟨found, rfl, rfl⟩
  refine .row rewrite rfl (finishEligibility_edited valid rewrite _ ?_).1
  intro same
  obtain rfl : node.validation = validation := by simpa using same
  rfl

theorem recordAuxiliaryEvidenceDelivery_stateEdited (deliveryId : EvidenceId) :
    overlay.StateEdited (overlay.recordAuxiliaryEvidenceDelivery hash deliveryId).2 := by
  unfold recordAuxiliaryEvidenceDelivery
  split
  · exact .unchanged rfl
  rename_i node found
  split
  · exact .restaged valid found
  · have rewrite : overlay.view.RowRewrite hash node (node.withDelivery deliveryId) :=
      ⟨found, rfl, rfl⟩
    exact .row rewrite rfl (stage_edited valid rewrite rfl)

theorem setBodyValidationState_stateEdited (body : BodyValidationState) :
    overlay.StateEdited (overlay.setBodyValidationState hash body).2 := by
  cases found : overlay.headerNode hash with
  | none =>
    simp only [setBodyValidationState, found]
    exact .unchanged rfl
  | some node =>
    cases recorded : overlay.tombstone hash with
    | some row =>
      simp only [setBodyValidationState, found, recorded, Option.isSome_some, if_true]
      split <;> exact .unchanged rfl
    | none =>
      cases verdict : node.bodyValidationState.isConsensusInvalid with
      | true =>
        simp only [setBodyValidationState, found, recorded, verdict, Option.isSome_none,
          Bool.false_eq_true, if_false, if_true]
        split <;> exact .restaged valid found
      | false =>
        exact .body body found recorded verdict
          (setBodyValidationState_edited valid found body recorded verdict).1

end

theorem StateEdited.base (edited : overlay.StateEdited result) : result.base = overlay.base := by
  cases edited with
  | unchanged same => rw [same]
  | row _ _ edited => exact edited.rewritten.base
  | body _ _ _ _ edited => exact edited.base

theorem childCoordinate_cases (valid : overlay.Invariant)
    (rootFound : overlay.headerNode overlay.finalizedFrontier.hash = some anchor)
    {parentHash : Hash} (parentFound : overlay.headerNode parentHash = some parent)
    (validation : HeaderValidationState) (blockWork : Nat) :
    ((overlay.childCoordinate parent parentHash validation blockWork).2 = overlay ∨
      (overlay.childCoordinate parent parentHash validation blockWork).2 =
        overlay.rebaseAll anchor.workCoordinate) ∧
      ∀ coordinate, (overlay.childCoordinate parent parentHash validation blockWork).1 =
        .ok coordinate →
          ∃ moved, (overlay.childCoordinate parent parentHash validation blockWork).2.headerNode
            parentHash = some moved ∧ moved.workCoordinate.checkedAdd blockWork = .ok coordinate := by
  unfold childCoordinate
  rw [rebase_eq valid rootFound]
  cases direct : parent.workCoordinate.checkedAdd blockWork with
  | ok coordinate =>
    refine ⟨.inl rfl, fun other same => ⟨parent, parentFound, ?_⟩⟩
    simp only [Except.ok.injEq] at same
    rw [direct, same]
  | error error =>
    simp only
    split
    · cases movedFound : (overlay.rebaseAll anchor.workCoordinate).headerNode parentHash with
      | none => exact ⟨.inr rfl, fun other same => by simp at same⟩
      | some moved =>
        cases sum : moved.workCoordinate.checkedAdd blockWork with
        | error error => exact ⟨.inr (by simp [sum]), fun other same => by simp [sum] at same⟩
        | ok coordinate =>
          refine ⟨.inr (by simp [sum]), fun other same => ⟨moved, ?_, ?_⟩⟩
          · simpa [sum] using movedFound
          · simp only [sum, Except.ok.injEq] at same
            rw [sum, same]
    · exact ⟨.inl rfl, fun other same => by simp at same⟩

/-- An insertion that attached a row: what the row takes from the header and from a tombstone. -/
structure Inserted [HeaderHasher] (overlay result : GraphOverlay) (header : Header)
    (body : BodyValidationState) (node parent : HeaderNode) : Prop where
  attached : result = overlay.attach node
  attachment : overlay.view.Attachment node parent
  bound : node.height ≤ Height.maximum
  ofHeader : node.header = header
  hash : node.hash = header.hash
  parentHash : node.parentHash = header.previousBlockHash
  work : header.difficultyThreshold.toWork = some node.blockWork
  verdict : node.bodyValidationState = ((overlay.tombstone header.hash).map
    ConsensusInvalidBodyTombstone.bodyState).getD body

section

variable (valid : overlay.Invariant)
include valid

theorem rebaseAll_sameUpToRebase (coordinate : WorkCoordinate) :
    overlay.view.SameUpToRebase (overlay.rebaseAll coordinate).view :=
  .inr ⟨coordinate, (rebaseAll_spec valid coordinate).2.find⟩

section

variable (header : Header) (validation : HeaderValidationState)
  (directReasons : List EligibilityReason) (body : BodyValidationState)
include header validation directReasons body

theorem insert_cases [HeaderHasher]
    (rootFound : overlay.headerNode overlay.finalizedFrontier.hash = some anchor) :
    ∃ middle, (middle = overlay ∨ middle = overlay.rebaseAll anchor.workCoordinate) ∧
      ((overlay.insert header validation directReasons body).2 = middle ∨
        ∃ node parent, middle.Inserted (overlay.insert header validation directReasons body).2
          header body node parent) := by
  unfold insert
  cases work : header.difficultyThreshold.toWork with
  | none => exact ⟨overlay, .inl rfl, .inl rfl⟩
  | some blockWork =>
    cases present : overlay.headerNode header.hash with
    | some existing =>
      refine ⟨overlay, .inl rfl, .inl ?_⟩
      dsimp only
      split <;> rfl
    | none =>
      cases parentFound : overlay.headerNode header.previousBlockHash with
      | none => exact ⟨overlay, .inl rfl, .inl rfl⟩
      | some parent =>
        cases next : Height.next parent.height with
        | none => exact ⟨overlay, .inl rfl, .inl (by simp [next])⟩
        | some height =>
          obtain ⟨moved, sums⟩ := childCoordinate_cases valid rootFound parentFound
            validation blockWork
          simp only [next]
          rcases run : overlay.childCoordinate parent header.previousBlockHash validation
            blockWork with ⟨outcome, middle⟩
          rw [run] at moved sums
          refine ⟨middle, moved, ?_⟩
          cases outcome with
          | error error => exact .inl rfl
          | ok coordinate =>
            obtain ⟨under, underFound, sum⟩ := sums coordinate rfl
            simp only
            split
            · exact .inl rfl
            have same : overlay.view.SameUpToRebase middle.view := by
              rcases moved with rfl | rfl
              · exact .inl fun _ => rfl
              · exact rebaseAll_sameUpToRebase valid _
            obtain ⟨successor, bound⟩ := Height.next_eq_some.mp next
            exact .inr ⟨_, under, rfl, same.attachment present parentFound next
              underFound sum _ _, successor ▸ bound, rfl, rfl, rfl, work, rfl⟩

theorem insert_base [HeaderHasher] :
    (overlay.insert header validation directReasons body).2.base = overlay.base := by
  obtain ⟨_, rootFound, _⟩ := valid.coherent.root
  obtain ⟨middle, moved, outcome⟩ := insert_cases valid header validation directReasons
    body rootFound
  have middleBase : middle.base = overlay.base := by
    rcases moved with rfl | rfl
    · rfl
    · exact (rebaseAll_spec valid _).1.base
  rcases outcome with same | ⟨node, _, inserted⟩
  · rw [same, middleBase]
  · rw [inserted.attached, (attach_frame middle node).base, middleBase]

end

theorem advanceFinalizedFrontier_cases (finalized : Frontier) :
    (overlay.advanceFinalizedFrontier finalized).2 = overlay ∨
      ∃ node deleted hidden, overlay.headerNode finalized.hash = some node ∧
        node.height = finalized.height ∧ node.isEligible = true ∧
        overlay.deleteHeaderNodes deleted = (.ok (), hidden) ∧
        hidden.headerNode finalized.hash = some node ∧
        (overlay.advanceFinalizedFrontier finalized).2 = hidden.moveRoot finalized node ∧
        overlay.FinalityAdvanced (overlay.advanceFinalizedFrontier finalized).2 finalized := by
  cases found : overlay.headerNode finalized.hash with
  | none => exact .inl (by simp [advanceFinalizedFrontier, found])
  | some node =>
    by_cases height : node.height = finalized.height
    · cases eligible : node.isEligible with
      | false => exact .inl (by simp [advanceFinalizedFrontier, found, height, eligible])
      | true =>
        right
        obtain ⟨_, hidden, walked, _, run, rootFound, advanced⟩ :=
          advanceFinalizedFrontier_run valid found height eligible
        refine ⟨node, _, hidden, rfl, height, eligible, run, rootFound, ?_⟩
        have whole : (overlay.advanceFinalizedFrontier finalized).2 =
            hidden.moveRoot finalized node := by
          simp [advanceFinalizedFrontier, found, height, eligible, walked, run, rootFound]
        exact ⟨whole, whole ▸ advanced⟩
    · exact .inl (by simp [advanceFinalizedFrontier, found, height])

end

theorem removeHeaderLeaf_cases (overlay : GraphOverlay) (hash : Hash) :
    (overlay.removeHeaderLeaf hash).2 = overlay ∨
      ∃ node, overlay.headerNode hash = some node ∧ overlay.headerChildrenOf hash = ∅ ∧
        overlay.DeleteFrame (overlay.removeHeaderLeaf hash).2 hash node := by
  by_cases leaf : overlay.headerChildren hash = []
  · cases found : overlay.headerNode hash with
    | none => exact .inl (by simp [removeHeaderLeaf, leaf, deleteHeaderNode, found])
    | some node =>
      obtain ⟨result, run, frame⟩ := deleteHeaderNode_spec found
      have whole : (overlay.removeHeaderLeaf hash).2 = result := by
        simp [removeHeaderLeaf, leaf, run]
      exact .inr ⟨node, rfl, (ascending_eq_nil _).mp leaf, whole ▸ frame⟩
  · exact .inl (by simp [removeHeaderLeaf, leaf])

theorem applyEdit_base [HeaderHasher] (valid : overlay.Invariant) (edit : HeaderGraphEdit) :
    (overlay.applyEdit edit).2.base = overlay.base := by
  cases edit with
  | insertHeader header validation directReasons body =>
    exact insert_base valid header validation directReasons body
  | addEligibilityReason hash reason =>
    exact (addEligibilityReason_stateEdited valid hash reason).base
  | removeOperatorInvalidation hash id evidence =>
    exact (removeOperatorInvalidation_stateEdited valid hash id evidence).base
  | setBodyValidationState hash body =>
    exact (setBodyValidationState_stateEdited valid hash body).base
  | setHeaderValidationState hash validation =>
    exact (setHeaderValidationState_stateEdited valid hash validation).base
  | recordAuxiliaryEvidenceDelivery hash deliveryId =>
    exact (recordAuxiliaryEvidenceDelivery_stateEdited valid hash deliveryId).base
  | advanceFinalizedFrontier finalized =>
    change (overlay.advanceFinalizedFrontier finalized).2.base = _
    rcases advanceFinalizedFrontier_cases valid finalized with same | advanced
    · rw [same]
    · obtain ⟨_, _, _, _, _, _, _, _, _, advanced⟩ := advanced
      exact advanced.base
  | removeHeaderLeaf hash =>
    change (overlay.removeHeaderLeaf hash).2.base = _
    rcases removeHeaderLeaf_cases overlay hash with same | ⟨_, _, _, frame⟩
    · rw [same]
    · exact frame.base

end GraphOverlay

end Zakura.HeaderChain
