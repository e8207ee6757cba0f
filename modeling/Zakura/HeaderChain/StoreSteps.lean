import Zakura.HeaderChain.StoreInvariant

/-!
Pruning of the header store at a finality advance or a leaf removal, and the
complete list of what one mutation can do to a well formed store.
-/

namespace Zakura.HeaderChain

open FiniteMap Finset Option

variable {hash : Hash} {store : MemHeaderStore} {node : HeaderNode}

namespace MemHeaderStore

structure Dropped (store result : MemHeaderStore) (hashes : List Hash) : Prop where
  find : ∀ query node, result.nodes.lookup query = some node ↔
    query ∉ hashes ∧ store.nodes.lookup query = some node
  children : ∀ parent child, child ∈ result.children.members parent ↔
    parent ∉ hashes ∧ child ∈ store.children.members parent
  heights : ∀ height query, query ∈ result.heights.members height ↔
    query ∈ store.heights.members height ∧
      ¬(query ∈ hashes ∧ ∃ node, store.nodes.lookup query = some node ∧ node.height = height)
  tips : ∀ query, query ∈ result.eligibleHeaderTips ↔
    query ∉ hashes ∧ query ∈ store.eligibleHeaderTips
  childrenFull : NoEmpty store.children → NoEmpty result.children
  heightsFull : NoEmpty store.heights → NoEmpty result.heights
  finalized : result.finalizedFrontier = store.finalizedFrontier
  preferred : result.preferredHeaderTip = store.preferredHeaderTip
  tombstones : result.consensusInvalidBodyTombstones = store.consensusInvalidBodyTombstones

theorem Dropped.nil (store : MemHeaderStore) : store.Dropped store [] := by
  constructor <;> simp

theorem dropNode_dropped {store : MemHeaderStore} {node : HeaderNode}
    (found : store.nodes.lookup hash = some node) : store.Dropped (store.dropNode hash) [hash] := by
  simp only [dropNode, found]
  constructor
  · intro query other
    simp only [lookup_erase_ite]
    split <;> simp_all
  · intro parent child
    simp only [members_erase]
    split <;> simp_all
  · intro height query
    rw [mem_members_removeMember]
    by_cases same : query = hash
    · subst query
      simp [found, eq_comm]
    · simp [same]
  · intro query
    simp
  · exact fun full => full.erase hash
  · exact fun full => full.removeMember _ _
  · rfl
  · rfl
  · rfl

theorem Dropped.cons {store middle result : MemHeaderStore} {hashes : List Hash}
    (fresh : hash ∉ hashes) (first : store.Dropped middle [hash])
    (rest : middle.Dropped result hashes) : store.Dropped result (hash :: hashes) := by
  constructor
  · intro query node
    rw [rest.find, first.find]
    simp only [List.mem_cons, List.not_mem_nil, or_false, not_or]
    tauto
  · intro parent child
    rw [rest.children, first.children]
    simp only [List.mem_cons, List.not_mem_nil, or_false, not_or]
    tauto
  · intro height query
    rw [rest.heights, first.heights]
    have retained (node : HeaderNode) := first.find query node
    by_cases same : query = hash
    · subst query
      simp [fresh]
    · simp [same, retained]
  · intro query
    rw [rest.tips, first.tips]
    simp only [List.mem_cons, List.not_mem_nil, or_false, not_or]
    tauto
  · exact fun full => rest.childrenFull (first.childrenFull full)
  · exact fun full => rest.heightsFull (first.heightsFull full)
  · exact rest.finalized.trans first.finalized
  · exact rest.preferred.trans first.preferred
  · exact rest.tombstones.trans first.tombstones

theorem foldl_dropNode (store : MemHeaderStore) (hashes : List Hash) (distinct : hashes.Nodup)
    (retained : ∀ hash ∈ hashes, ∃ node, store.nodes.lookup hash = some node) :
    store.Dropped (hashes.foldl dropNode store) hashes := by
  induction hashes generalizing store with
  | nil => exact Dropped.nil store
  | cons hash rest ih =>
    obtain ⟨_, found⟩ := retained hash (by simp)
    have first := dropNode_dropped found
    obtain ⟨fresh, restDistinct⟩ := List.nodup_cons.mp distinct
    refine first.cons fresh (ih (store.dropNode hash) restDistinct ?_)
    intro other member
    obtain ⟨otherNode, otherFound⟩ := retained other (by simp [member])
    refine ⟨otherNode, (first.find _ _).mpr ⟨?_, otherFound⟩⟩
    simp only [List.mem_singleton]
    rintro rfl
    exact fresh member

section

variable {result : MemHeaderStore} {finalized : Frontier} {hashNode row : HeaderNode}

section

variable (valid : store.RepresentationInvariant)
  (found : store.nodes.lookup finalized.hash = some node)
include valid found

theorem mem_retainedFrom (hash : Hash) :
    hash ∈ store.retainedFrom finalized.hash ↔ store.view.Descends finalized.hash hash := by
  rw [← valid.coherent.reaches_iff_descends found]
  apply Worklist.mem_collect_singleton store.headerChildren store.children.keys
  intro item busy
  rw [mem_keys_iff]
  by_contra absent
  simp only [not_exists] at absent
  have none : store.children.lookup item = none :=
    eq_none_iff_forall_ne_some.mpr absent
  simp [headerChildren, members, none] at busy

theorem mem_finalityDeletions (hashFound : store.nodes.lookup hash = some hashNode) :
    hash ∈ store.finalityDeletions finalized.hash ↔ ¬store.view.Descends finalized.hash hash := by
  have key : hash ∈ store.nodes.keys := mem_keys_iff.mpr ⟨hashNode, hashFound⟩
  simp only [finalityDeletions, mem_ascending, mem_filter, key, true_and,
    mem_retainedFrom valid found]

end

theorem finalityDeletions_retained (store : MemHeaderStore) (root : Hash) :
    ∀ hash ∈ store.finalityDeletions root, ∃ node, store.nodes.lookup hash = some node := by
  intro hash member
  simp only [finalityDeletions, mem_ascending, mem_filter] at member
  exact mem_keys_iff.mp member.1

structure FinalityAdvanced (store result : MemHeaderStore) (finalized : Frontier) : Prop where
  valid : result.RepresentationInvariant
  root : result.finalizedFrontier = finalized
  preferred : result.preferredHeaderTip = store.preferredHeaderTip
  find : ∀ hash node, result.nodes.lookup hash = some node ↔
    store.view.Descends finalized.hash hash ∧ store.nodes.lookup hash = some node
  tombstones : result.consensusInvalidBodyTombstones =
    store.consensusInvalidBodyTombstones.retain fun _ tombstone =>
      finalized.height < tombstone.height

theorem FinalityAdvanced.finish {Value : Type} (advanced : store.FinalityAdvanced result finalized)
    (value : Value) : store.FinalityAdvanced (result.finish value).2 finalized where
  valid := finish_invariant result value advanced.valid
  root := (finish_frame result value).finalized.trans advanced.root
  preferred := (finish_frame result value).preferred.trans advanced.preferred
  find := by
    intro hash row
    change (result.finish value).2.view.find hash = some row ↔ _
    rw [finish_view]
    exact advanced.find hash row
  tombstones := (finish_frame result value).tombstones.trans advanced.tombstones

theorem clearInherited_eq (found : store.nodes.lookup hash = some row)
    (inherited : row.eligibility.inheritedFrom = none) : store.clearInherited hash = store := by
  have same : row.withInheritedFrom none = row :=
    HeaderNode.ext_directRow rfl inherited.symm
  simp [clearInherited, found, same, putNode, insert_lookup found]

section

variable (valid : store.RepresentationInvariant)
  (found : store.nodes.lookup finalized.hash = some node) (height : node.height = finalized.height)
include valid found height

theorem finalizedAt_advanced (inherited : node.eligibility.inheritedFrom = none) :
    store.FinalityAdvanced (store.finalizedAt finalized) finalized := by
  have shaped := valid.coherent.toShaped
  have pruning : store.view.Pruning finalized (store.view.Descends finalized.hash) :=
    shaped.descends_pruning found height inherited
  have dropped := foldl_dropNode store (store.finalityDeletions finalized.hash)
    (nodup_ascending _) (finalityDeletions_retained store finalized.hash)
  have kept {hash : Hash} {hashNode : HeaderNode}
      (hashFound : store.nodes.lookup hash = some hashNode) :
      hash ∉ store.finalityDeletions finalized.hash ↔
        store.view.Descends finalized.hash hash := by
    rw [mem_finalityDeletions valid found hashFound, not_not]
  have find (hash : Hash) (hashNode : HeaderNode) :
      (store.pruneTo finalized).nodes.lookup hash = some hashNode ↔
        store.view.Descends finalized.hash hash ∧ store.nodes.lookup hash = some hashNode := by
    change ((store.finalityDeletions finalized.hash).foldl dropNode store).nodes.lookup hash =
      some hashNode ↔ _
    rw [dropped.find]
    exact and_congr_left kept
  have cleared : store.finalizedAt finalized =
      (store.pruneTo finalized).refreshTips [finalized.hash] := by
    rw [finalizedAt, clearInherited_eq ((find _ _).mpr ⟨pruning.rootKept, found⟩) inherited]
  have pruned : store.view.Pruned (store.finalizedAt finalized).view
      (store.view.Descends finalized.hash) {finalized.hash} := by
    rw [cleared]
    constructor
    · exact find
    · intro parent child
      refine (dropped.children parent child).trans (and_comm.trans ?_)
      refine and_congr_right fun member => ?_
      obtain ⟨⟨_, parentFound⟩, _⟩ := shaped.edge_found member
      rw [kept parentFound]
      exact ⟨fun descends => ⟨descends, ((shaped.descends_children found member).mp descends).1⟩,
        And.left⟩
    · intro queryHeight hash
      refine (dropped.heights queryHeight hash).trans (and_comm.trans ?_)
      refine and_congr_left fun member => ?_
      obtain ⟨hashNode, hashFound, heightEq⟩ := (shaped.heights _ _).mp member
      rw [← kept hashFound]
      exact not_congr ⟨And.left, fun deleted => ⟨deleted, hashNode, hashFound, heightEq⟩⟩
    · intro hash
      refine (mem_refreshEligibleHeaderTips _ _ _ _).trans ?_
      simp only [List.mem_singleton, mem_singleton]
      split
      · rfl
      refine (dropped.tips hash).trans (and_congr_left fun member => ?_)
      obtain ⟨_, hashFound⟩ := valid.coherent.tip_found member
      exact kept hashFound
    · intro child childNode childFound notRoot removed parentKept
      exact absurd (HeaderGraphView.Descends.child childFound notRoot parentKept) removed
  have root : (store.finalizedAt finalized).view.finalized = finalized := by
    rw [cleared]
    rfl
  refine ⟨⟨?_, ?_, ?_, ?_⟩, root, ?_, ?_, ?_⟩
  · exact valid.coherent.prune (root.symm ▸ pruning) pruned
  · exact valid.bounded.prune (root.symm ▸ pruning) pruned
  · rw [cleared]
    exact dropped.childrenFull valid.childrenFull
  · rw [cleared]
    exact dropped.heightsFull valid.heightsFull
  · rw [cleared]
    exact dropped.preferred
  · exact pruned.find
  · rw [cleared]
    simp [refreshTips, pruneTo, dropped.tombstones]

theorem advanceFinalizedFrontier_eq (eligible : node.isEligible = true) :
    store.advanceFinalizedFrontier finalized =
      (store.finalizedAt finalized).finish (store.finalityDeletions finalized.hash) := by
  have ancestor : store.headerAncestor finalized.hash store.finalizedFrontier.height =
      .ok (some store.finalizedFrontier) := valid.coherent.headerAncestor_root found
  simp [advanceFinalizedFrontier, found, height, eligible, ancestor]

end

theorem advanceFinalizedFrontier_cases (valid : store.RepresentationInvariant)
    (finalized : Frontier) : (store.advanceFinalizedFrontier finalized).2 = store ∨
      ∃ node, store.nodes.lookup finalized.hash = some node ∧
        store.FinalityAdvanced (store.advanceFinalizedFrontier finalized).2 finalized := by
  cases found : store.nodes.lookup finalized.hash with
  | none => exact .inl (by simp [advanceFinalizedFrontier, found])
  | some node =>
    by_cases height : node.height = finalized.height
    · by_cases eligible : node.isEligible = true
      · refine .inr ⟨node, rfl, ?_⟩
        rw [advanceFinalizedFrontier_eq valid found height eligible]
        exact (finalizedAt_advanced valid found height
          ((HeaderNode.isEligible_iff node).mp eligible).2).finish _
      · exact .inl (by simp [advanceFinalizedFrontier, found, height, eligible])
    · exact .inl (by simp [advanceFinalizedFrontier, found, height])

end

section

variable (valid : store.RepresentationInvariant) (found : store.nodes.lookup hash = some node)
  (leaf : store.children.members hash = ∅)
include valid found leaf

theorem withoutLeaf_pruned :
    store.view.Pruned (store.withoutLeaf hash node).view (· ≠ hash) {node.parentHash} := by
  have shaped := valid.coherent.toShaped
  constructor
  · intro query queryNode
    simp only [view, withoutLeaf, refreshTips, lookup_erase_ite]
    split <;> simp_all
  · intro parent child
    have removed := mem_members_removeMember (store.children.erase hash) node.parentHash parent
      hash child
    refine removed.trans ?_
    rw [members_erase]
    by_cases atLeaf : parent = hash
    · simp [atLeaf]
    simp only [atLeaf, if_false, ne_eq, not_false_eq_true, true_and]
    constructor
    · rintro ⟨member, different⟩
      refine ⟨member, ?_⟩
      rintro rfl
      obtain ⟨childNode, childFound, _, link⟩ := (shaped.children _ _).mp member
      exact different ⟨mem_unique childFound found ▸ link.symm, rfl⟩
    · rintro ⟨member, different⟩
      exact ⟨member, fun both => different both.2⟩
  · intro height query
    have removed := mem_members_removeMember store.heights node.height height hash query
    refine removed.trans ?_
    constructor
    · rintro ⟨member, different⟩
      refine ⟨?_, member⟩
      rintro rfl
      obtain ⟨queryNode, queryFound, heightEq⟩ := (shaped.heights _ _).mp member
      exact different ⟨mem_unique queryFound found ▸ heightEq.symm, rfl⟩
    · rintro ⟨different, member⟩
      exact ⟨member, fun both => different both.2⟩
  · intro query
    refine (mem_refreshEligibleHeaderTips _ _ _ _).trans ?_
    simp only [List.mem_singleton, mem_singleton]
    split
    · rfl
    · exact mem_erase
  · intro child childNode childFound notRoot removed _
    simp only [ne_eq, not_not] at removed
    subst child
    simp [mem_unique found childFound]

theorem withoutLeaf_invariant (notRoot : hash ≠ store.finalizedFrontier.hash) :
    (store.withoutLeaf hash node).RepresentationInvariant := by
  have pruning : store.view.Pruning store.view.finalized (· ≠ hash) :=
    valid.coherent.toShaped.leaf_pruning valid.coherent leaf notRoot
  have pruned := withoutLeaf_pruned valid found leaf
  constructor
  · exact valid.coherent.prune pruning pruned
  · exact valid.bounded.prune pruning pruned
  · exact (valid.childrenFull.erase hash).removeMember _ _
  · exact valid.heightsFull.removeMember _ _

end

structure LeafRemoved (store result : MemHeaderStore) (hash : Hash) : Prop where
  valid : result.RepresentationInvariant
  finalized : result.finalizedFrontier = store.finalizedFrontier
  preferred : result.preferredHeaderTip = store.preferredHeaderTip
  tombstones : result.consensusInvalidBodyTombstones = store.consensusInvalidBodyTombstones
  find : ∀ query node, result.nodes.lookup query = some node ↔
    query ≠ hash ∧ store.nodes.lookup query = some node

theorem removeHeaderLeaf_cases (valid : store.RepresentationInvariant)
    (notRoot : hash ≠ store.finalizedFrontier.hash) : (store.removeHeaderLeaf hash).2 = store ∨
      ∃ node, store.nodes.lookup hash = some node ∧
        store.LeafRemoved (store.removeHeaderLeaf hash).2 hash := by
  unfold removeHeaderLeaf
  split
  · exact .inl rfl
  rename_i node found
  split
  · exact .inl rfl
  rename_i busy
  have leaf := not_nonempty_iff_eq_empty.mp busy
  have frame := finish_frame (store.withoutLeaf hash node) ()
  refine .inr ⟨node, found, ?_, frame.finalized, frame.preferred, frame.tombstones, ?_⟩
  · exact finish_invariant _ () (withoutLeaf_invariant valid found leaf notRoot)
  intro query row
  change ((store.withoutLeaf hash node).finish ()).2.view.find query = some row ↔ _
  rw [finish_view]
  exact (withoutLeaf_pruned valid found leaf).find query row

section

variable [HeaderHasher]

inductive Stepped (store : MemHeaderStore) : MemHeaderStore → Prop
  | unchanged : Stepped store store
  | row {hash old node result} (edited : store.RowEdited result hash node)
      (rewrite : store.view.RowRewrite hash old node)
      (body : node.bodyValidationState = old.bodyValidationState) : Stepped store result
  | body {hash old body result} (found : store.nodes.lookup hash = some old)
      (undecided : store.consensusInvalidBodyTombstones.lookup hash = none)
      (edited : store.BodyEdited result hash (old.withBody body)) : Stepped store result
  | coordinated {result} (moved : store.Coordinated result) : Stepped store result
  | attached {middle result header validation directReasons body node parent}
      (moved : store.Coordinated middle)
      (inserted : middle.Inserted result header validation directReasons body node parent) :
      Stepped store result
  | advanced {finalized node result} (found : store.nodes.lookup finalized.hash = some node)
      (advance : store.FinalityAdvanced result finalized) : Stepped store result
  | leaf {hash node result} (found : store.nodes.lookup hash = some node)
      (notRoot : hash ≠ store.finalizedFrontier.hash)
      (removed : store.LeafRemoved result hash) : Stepped store result

section

variable (valid : store.RepresentationInvariant)
include valid

theorem Stepped.invariant {result : MemHeaderStore} (stepped : store.Stepped result) :
    result.RepresentationInvariant := by
  cases stepped with
  | unchanged => exact valid
  | row edited | body _ _ edited => exact edited.valid
  | coordinated moved => exact moved.valid
  | attached moved inserted => exact inserted.invariant moved.valid
  | advanced _ advance => exact advance.valid
  | leaf _ _ removed => exact removed.valid

theorem applyEdit_stepped (edit : HeaderGraphEdit)
    (keepsRoot : edit.KeepsRoot store.finalizedFrontier.hash) :
    store.Stepped (store.applyEdit edit).2 := by
  cases edit with
  | insertHeader header validation directReasons body =>
    change store.Stepped (store.insert header validation directReasons body).2
    have cases := insert_cases valid header validation directReasons body
    generalize store.insert header validation directReasons body = outcome at cases
    cases cases with
    | failed moved => exact .coordinated moved
    | present _ _ => exact .unchanged
    | attached moved inserted => exact .attached moved inserted
  | addEligibilityReason hash reason =>
    change store.Stepped (store.addEligibilityReason hash reason).2
    cases found : store.nodes.lookup hash with
    | none =>
      simp only [addEligibilityReason, found]
      exact .unchanged
    | some node =>
      cases inserted : node.eligibility.tryInsertDirectReason hash reason with
      | error error =>
        simp only [addEligibilityReason, found, inserted]
        exact .unchanged
      | ok next =>
        have kept := (tryInsertDirectReason_ok inserted).1
        exact .row (addEligibilityReason_edited valid found inserted).1 ⟨found, rfl, kept⟩ rfl
  | removeOperatorInvalidation hash id evidence =>
    change store.Stepped (store.removeOperatorInvalidation hash id evidence).2
    cases found : store.nodes.lookup hash with
    | none =>
      simp only [removeOperatorInvalidation, found]
      exact .unchanged
    | some node =>
      exact .row (removeOperatorInvalidation_edited valid found id evidence).1
        ⟨found, rfl, rfl⟩ rfl
  | setBodyValidationState hash body =>
    change store.Stepped (store.setBodyValidationState hash body).2
    cases found : store.nodes.lookup hash with
    | none =>
      simp only [setBodyValidationState, found]
      exact .unchanged
    | some node =>
      by_cases decided : (store.consensusInvalidBodyTombstones.lookup hash).isSome ∨
          node.bodyValidationState.isConsensusInvalid = true
      · simp only [setBodyValidationState, found, if_pos decided]
        split <;> exact .unchanged
      · have undecided : store.consensusInvalidBodyTombstones.lookup hash = none := by
          simpa using (not_or.mp decided).1
        exact .body found undecided (setBodyValidationState_edited valid found body decided).1
  | setHeaderValidationState hash validation =>
    change store.Stepped (store.setHeaderValidationState hash validation).2
    cases found : store.nodes.lookup hash with
    | none =>
      simp only [setHeaderValidationState, found]
      exact .unchanged
    | some node =>
      exact .row (setHeaderValidationState_edited valid found validation).1
        ⟨found, rfl, rfl⟩ rfl
  | recordAuxiliaryEvidenceDelivery hash deliveryId =>
    change store.Stepped (store.recordAuxiliaryEvidenceDelivery hash deliveryId).2
    cases found : store.nodes.lookup hash with
    | none =>
      simp only [recordAuxiliaryEvidenceDelivery, found]
      exact .unchanged
    | some node =>
      by_cases known : deliveryId ∈ node.auxDeliveryIds
      · simp only [recordAuxiliaryEvidenceDelivery, found, known, if_true]
        exact .unchanged
      · exact .row (recordAuxiliaryEvidenceDelivery_edited valid found known).1
          ⟨found, rfl, rfl⟩ rfl
  | advanceFinalizedFrontier finalized =>
    change store.Stepped (store.advanceFinalizedFrontier finalized).2
    rcases advanceFinalizedFrontier_cases valid finalized with same | ⟨node, found, advance⟩
    · rw [same]
      exact .unchanged
    · exact .advanced found advance
  | removeHeaderLeaf hash =>
    change store.Stepped (store.removeHeaderLeaf hash).2
    rcases removeHeaderLeaf_cases valid keepsRoot with same | ⟨node, found, removed⟩
    · rw [same]
      exact .unchanged
    · exact .leaf found keepsRoot removed

theorem applyMutation_stepped (mutation : StoreMutation)
    (keepsRoot : mutation.KeepsRoot store.finalizedFrontier.hash) :
    store.Stepped (store.applyMutation mutation) := by
  cases mutation with
  | graph edit => exact applyEdit_stepped valid edit keepsRoot
  | rebaseWorkCoordinates => exact .coordinated (coordinated_rebase valid)

end

end

end MemHeaderStore

end Zakura.HeaderChain
