import Zakura.HeaderChain.Edits
import Zakura.HeaderChain.StoreCore

/-!
The representation invariant of the header store and its preservation by every
mutation, whether the call succeeds or fails.
-/

namespace Zakura.HeaderChain

open FiniteMap HeaderGraphView

variable {result store initial staged : MemHeaderStore} {reason : EligibilityReason}
  {changed : Bool} {eligibility next : EligibilityState} {hash : Hash} {node : HeaderNode}

namespace MemHeaderStore

structure RepresentationInvariant (store : MemHeaderStore) : Prop where
  coherent : store.view.Coherent
  bounded : store.view.Bounded
  childrenFull : NoEmpty store.children
  heightsFull : NoEmpty store.heights

structure SameFrame (store result : MemHeaderStore) : Prop where
  finalized : result.finalizedFrontier = store.finalizedFrontier
  preferred : result.preferredHeaderTip = store.preferredHeaderTip
  children : result.children = store.children
  heights : result.heights = store.heights
  tombstones : result.consensusInvalidBodyTombstones = store.consensusInvalidBodyTombstones

theorem SameFrame.refl (store : MemHeaderStore) : store.SameFrame store :=
  ⟨rfl, rfl, rfl, rfl, rfl⟩

theorem SameFrame.trans {first middle last : MemHeaderStore} (upper : first.SameFrame middle)
    (lower : middle.SameFrame last) : first.SameFrame last where
  finalized := lower.finalized.trans upper.finalized
  preferred := lower.preferred.trans upper.preferred
  children := lower.children.trans upper.children
  heights := lower.heights.trans upper.heights
  tombstones := lower.tombstones.trans upper.tombstones

theorem SameFrame.invariant (frame : store.SameFrame result) (valid : store.RepresentationInvariant)
    (coherent : result.view.Coherent) (bounded : result.view.Bounded) :
    result.RepresentationInvariant where
  coherent := coherent
  bounded := bounded
  childrenFull := frame.children ▸ valid.childrenFull
  heightsFull := frame.heights ▸ valid.heightsFull

section

variable {Value : Type} (store : MemHeaderStore) (value : Value)

@[simp] theorem finish_view : (store.finish value).2.view = store.view := by
  unfold finish
  split <;> rfl

theorem finish_cases : store.finish value =
      (.ok value, { store with graphRevision := store.graphRevision + 1 }) ∨
    store.finish value = (.error .revisionExhausted, store) := by
  unfold finish
  split
  · exact .inl rfl
  · exact .inr rfl

theorem finish_outcome : (store.finish value).1 = .ok value ∨
    (store.finish value).1 = .error .revisionExhausted := by
  rcases finish_cases store value with run | run
  · exact .inl (by rw [run])
  · exact .inr (by rw [run])

theorem finish_revision :
    ∃ revision, (store.finish value).2 = { store with graphRevision := revision } := by
  rcases finish_cases store value with run | run
  · exact ⟨_, by rw [run]⟩
  · exact ⟨_, by rw [run]⟩

theorem finish_frame : store.SameFrame (store.finish value).2 := by
  unfold finish
  split <;> exact ⟨rfl, rfl, rfl, rfl, rfl⟩

theorem finish_invariant (valid : store.RepresentationInvariant) :
    (store.finish value).2.RepresentationInvariant :=
  (finish_frame store value).invariant valid (by simpa using valid.coherent)
    (by rw [finish_view]; exact valid.bounded)

end

theorem nodeTable_lawful : nodeTable.Lawful where
  get_put := by
    intro store hash old node query _
    exact lookup_insert_ite store.nodes hash query node
  children_put := by
    intro store hash old node query _
    rfl

theorem putNode_view (store : MemHeaderStore) (hash : Hash) (node : HeaderNode) :
    (store.putNode hash node).view = store.view.putRow hash node := by
  simp only [view, putNode, HeaderGraphView.putRow, HeaderGraphView.mk.injEq, true_and, and_true]
  funext query
  exact lookup_insert_ite store.nodes hash query node

theorem nodeTable_presents (store : MemHeaderStore) : nodeTable.Presents store store.view where
  get := rfl
  mem_children := fun _ _ => mem_ascending
  children_nodup := fun _ => nodup_ascending _

theorem writes_frame (writes : nodeTable.Writes initial store) :
    store = { initial with nodes := store.nodes } := by
  induction writes with
  | none => rfl
  | put inherited _ _ ih =>
    simp only [nodeTable, putNode]
    rw [ih]

section

structure RowEdited (store result : MemHeaderStore) (hash : Hash) (node : HeaderNode) : Prop where
  valid : result.RepresentationInvariant
  frame : store.SameFrame result
  direct : SameDirect result.nodes.lookup (store.view.putRow hash node).find

def Edits (store : MemHeaderStore) (outcome : StoreOutcome Bool) (hash : Hash) (node : HeaderNode)
    (value : Bool) : Prop :=
  store.RowEdited outcome.2 hash node ∧
    (outcome.1 = .ok value ∨ outcome.1 = .error .revisionExhausted)

variable {old : HeaderNode}

section

variable (valid : store.RepresentationInvariant) (rewrite : store.view.RowRewrite hash old node)
include valid rewrite

theorem recomputeDescendantEligibility_spec :
    ∃ result, (store.putNode hash node).recomputeDescendantEligibility hash = (.ok (), result) ∧
      store.RowEdited result hash node := by
  have view := putNode_view store hash node
  have presents := nodeTable_presents (store.putNode hash node)
  rw [view] at presents
  have found : (store.putNode hash node).nodes.lookup hash = some node := by
    simp [putNode]
  obtain ⟨affected, result, run, isHash, isParent, done⟩ := rewrite.loop valid.coherent
    nodeTable_lawful presents (fun found => mem_keys_iff.mpr ⟨_, found⟩) false
  have frame := writes_frame done.writes
  have resultFrame : store.SameFrame (result.refreshTips (ascending affected)) := by
    rw [frame]
    exact ⟨rfl, rfl, rfl, rfl, rfl⟩
  refine ⟨result.refreshTips (ascending affected), ?_, ?_, resultFrame, done.direct⟩
  · have loop : recomputeLoop nodeTable false (store.putNode hash node).headerNodeCount
        (store.putNode hash node) {hash, node.parentHash}
        ((store.putNode hash node).headerChildren hash) = (.ok affected, result) := run
    simp [recomputeDescendantEligibility, found, loop]
  have rows : SameRows result.nodes.lookup store.nodes.lookup :=
    done.direct.sameRows.trans rewrite.sameRows
  refine resultFrame.invariant valid ?_ (valid.bounded.of_sameRows resultFrame.finalized rows)
  apply rewrite.recomputed valid.coherent done isHash isParent resultFrame.finalized rfl
  · funext parent
    exact congrArg (fun index => members index parent) resultFrame.children
  · funext height
    exact congrArg (fun index => members index height) resultFrame.heights
  intro query
  have tips : result.eligibleHeaderTips = store.eligibleHeaderTips := by
    rw [frame]
    rfl
  refine (mem_refresh_ascending _ _ _ query).trans ?_
  rw [tips]
  rfl

theorem putNode_edited (same : old.isEligible = node.isEligible) :
    store.RowEdited (store.putNode hash node) hash node := by
  have view := putNode_view store hash node
  have frame : store.SameFrame (store.putNode hash node) := ⟨rfl, rfl, rfl, rfl, rfl⟩
  refine ⟨frame.invariant valid ?_ ?_, frame, ?_⟩
  · rw [view]
    exact rewrite.coherent valid.coherent same
  · rw [view]
    exact valid.bounded.of_sameRows rfl rewrite.sameRows
  · intro query
    change ((store.putNode hash node).view.find query).map _ = _
    rw [view]

end

theorem RowEdited.refl (valid : store.RepresentationInvariant)
    (found : store.nodes.lookup hash = some node) : store.RowEdited store hash node where
  valid := valid
  frame := SameFrame.refl store
  direct := by
    rw [putRow_same found]
    exact fun _ => rfl

theorem RowEdited.finish {Value : Type} (edited : store.RowEdited result hash node) (value : Value) :
    store.RowEdited (result.finish value).2 hash node where
  valid := finish_invariant result value edited.valid
  frame := edited.frame.trans (finish_frame result value)
  direct := by
    change SameDirect (result.finish value).2.view.find _
    rw [finish_view]
    exact edited.direct

section

variable (valid : store.RepresentationInvariant) (rewrite : store.view.RowRewrite hash old node)
include valid rewrite

theorem finishEligibility_edited (changed : Bool)
    (unchanged : changed = false → old.isEligible = node.isEligible) :
    store.Edits ((store.putNode hash node).finishEligibility hash changed) hash node changed := by
  cases changed with
  | false => exact ⟨putNode_edited valid rewrite (unchanged rfl), .inl rfl⟩
  | true =>
    obtain ⟨result, run, edited⟩ := recomputeDescendantEligibility_spec valid rewrite
    simp only [finishEligibility, if_true, run]
    exact ⟨edited.finish true, finish_outcome result true⟩

end

end

section

variable {anchor : HeaderNode}

theorem rebaseAll_rebased (store : MemHeaderStore) (coordinate : WorkCoordinate) :
    store.view.Rebased (store.rebaseAll coordinate).view coordinate where
  finalized := rfl
  find := fun hash => lookup_mapValues _ store.nodes hash
  children := rfl
  hashes := rfl
  tips := rfl

theorem rebaseAll_frame (store : MemHeaderStore) (coordinate : WorkCoordinate) :
    store.SameFrame (store.rebaseAll coordinate) :=
  ⟨rfl, rfl, rfl, rfl, rfl⟩

section

variable (valid : store.RepresentationInvariant)
  (rootFound : store.nodes.lookup store.finalizedFrontier.hash = some anchor)
include valid rootFound

theorem rebaseAll_invariant : (store.rebaseAll anchor.workCoordinate).RepresentationInvariant :=
  (rebaseAll_frame store _).invariant valid
    (valid.coherent.rebase rootFound (rebaseAll_rebased store _))
    (valid.bounded.rebase (rebaseAll_rebased store _))

theorem rebase_eq : store.rebaseWorkCoordinatesToFinalizedFrontier =
      (store.rebaseAll anchor.workCoordinate).finish () := by
  have none := firstRebaseError_eq_none store.finalizedFrontier.hash anchor.workCoordinate
    store.nodes.values (by
      intro node member
      obtain ⟨hash, found⟩ := mem_values.mp member
      exact ⟨_, valid.coherent.rebasedCoordinate_eq rootFound found⟩)
  simp [rebaseWorkCoordinatesToFinalizedFrontier, rootFound, none]

end

theorem rebase_invariant (valid : store.RepresentationInvariant) :
    store.rebaseWorkCoordinatesToFinalizedFrontier.2.RepresentationInvariant := by
  obtain ⟨_, rootFound, _⟩ := valid.coherent.root
  rw [rebase_eq valid rootFound]
  exact finish_invariant _ () (rebaseAll_invariant valid rootFound)

end

section

variable {parent : HeaderNode} {parentHash : Hash} {validation : HeaderValidationState}
  {blockWork : Nat}

/-- The store a child coordinate is computed in: the given store, or the rebased one. -/
structure Coordinated (store result : MemHeaderStore) : Prop where
  valid : result.RepresentationInvariant
  frame : store.SameFrame result
  tips : result.eligibleHeaderTips = store.eligibleHeaderTips
  rows : store.view.SameUpToRebase result.view

section

variable (valid : store.RepresentationInvariant)
include valid

theorem Coordinated.refl : store.Coordinated store where
  valid := valid
  frame := SameFrame.refl store
  tips := rfl
  rows := .inl fun _ => rfl

theorem coordinated_rebase :
    store.Coordinated store.rebaseWorkCoordinatesToFinalizedFrontier.2 := by
  obtain ⟨anchor, rootFound, _⟩ := valid.coherent.root
  have view : store.rebaseWorkCoordinatesToFinalizedFrontier.2.view =
      (store.rebaseAll anchor.workCoordinate).view := by
    rw [rebase_eq valid rootFound, finish_view]
  refine ⟨rebase_invariant valid, ?_, ?_, .inr ⟨anchor.workCoordinate, ?_⟩⟩
  · rw [rebase_eq valid rootFound]
    exact (rebaseAll_frame store _).trans (finish_frame _ ())
  · exact congrArg tips view
  · intro hash
    have find := congrFun (congrArg find view) hash
    exact find.trans (lookup_mapValues _ store.nodes hash)

theorem childCoordinate_coordinated (parent : HeaderNode) (parentHash : Hash)
    (validation : HeaderValidationState) (blockWork : Nat) :
    store.Coordinated (store.childCoordinate parent parentHash validation blockWork).2 := by
  unfold childCoordinate
  split
  · exact Coordinated.refl valid
  split
  · have moved := coordinated_rebase valid
    split
    next rebased =>
      rw [rebased] at moved
      exact moved
    rename_i rebased
    rw [rebased] at moved
    split
    · exact moved
    · split <;> exact moved
  · exact Coordinated.refl valid

end

theorem childCoordinate_ok (found : store.nodes.lookup parentHash = some parent)
    {coordinate : WorkCoordinate}
    (run : store.childCoordinate parent parentHash validation blockWork = (.ok coordinate, result)) :
    ∃ moved, result.nodes.lookup parentHash = some moved ∧
      moved.workCoordinate.checkedAdd blockWork = .ok coordinate := by
  unfold childCoordinate at run
  split at run
  next direct =>
    obtain ⟨rfl, rfl⟩ := run
    exact ⟨parent, found, direct⟩
  split at run
  · split at run
    · simp at run
    split at run
    · simp at run
    rename_i moved movedFound
    split at run
    · simp at run
    next sum =>
      obtain ⟨rfl, rfl⟩ := run
      exact ⟨moved, movedFound, sum⟩
  · simp at run

theorem attach_attached (store : MemHeaderStore) (node : HeaderNode) :
    store.view.Attached (store.attach node).view node where
  finalized := rfl
  find := fun query => lookup_insert_ite store.nodes node.hash query node
  children := fun parent child =>
    (mem_members_addMember store.children node.parentHash parent node.hash child).trans or_comm
  hashes := fun height hash =>
    (mem_members_addMember store.heights node.height height node.hash hash).trans or_comm
  tips := fun hash => by
    simp only [view, attach]
    split <;> simp

theorem attach_invariant (valid : store.RepresentationInvariant)
    (attachment : store.view.Attachment node parent) (height : node.height ≤ Height.maximum) :
    (store.attach node).RepresentationInvariant where
  coherent := valid.coherent.attach attachment (attach_attached store node)
  bounded := valid.bounded.attach (attach_attached store node) height
  childrenFull := valid.childrenFull.addMember _ _
  heightsFull := valid.heightsFull.addMember _ _

structure Inserted [HeaderHasher] (store result : MemHeaderStore) (header : Header)
    (validation : HeaderValidationState) (directReasons : List EligibilityReason)
    (body : BodyValidationState) (node parent : HeaderNode) : Prop where
  attached : ∃ revision, result = { store.attach node with graphRevision := revision }
  attachment : store.view.Attachment node parent
  bound : node.height ≤ Height.maximum
  ofHeader : node.header = header
  hash : node.hash = header.hash
  parentHash : node.parentHash = header.previousBlockHash
  work : header.difficultyThreshold.toWork = some node.blockWork
  state : node.validation = validation
  reasons : node.eligibility.directReasons = directReasons.toFinset
  deliveries : node.auxDeliveryIds = []
  verdict : node.bodyValidationState = ((store.consensusInvalidBodyTombstones.lookup
    header.hash).map ConsensusInvalidBodyTombstone.bodyState).getD body

theorem Inserted.invariant [HeaderHasher] {header : Header} {directReasons : List EligibilityReason}
    {body : BodyValidationState}
    (inserted : store.Inserted result header validation directReasons body node parent)
    (valid : store.RepresentationInvariant) : result.RepresentationInvariant := by
  obtain ⟨_, rfl⟩ := inserted.attached
  have attachedValid := attach_invariant valid inserted.attachment inserted.bound
  exact { attachedValid with }

/-- What an insertion returns and leaves behind; a failed one may have rebased the store. -/
inductive InsertCase [HeaderHasher] (store : MemHeaderStore) (header : Header)
    (validation : HeaderValidationState) (directReasons : List EligibilityReason)
    (body : BodyValidationState) : StoreOutcome InsertResult → Prop
  | failed {error result} (moved : store.Coordinated result) :
      InsertCase store header validation directReasons body (.error error, result)
  | present {existing frontier} (found : store.nodes.lookup header.hash = some existing)
      (same : existing.header = header) :
      InsertCase store header validation directReasons body (.ok (.alreadyPresent frontier), store)
  | attached {middle outcome node parent} (moved : store.Coordinated middle)
      (inserted : middle.Inserted outcome.2 header validation directReasons body node parent) :
      InsertCase store header validation directReasons body outcome

theorem insert_cases [HeaderHasher] (valid : store.RepresentationInvariant) (header : Header)
    (validation : HeaderValidationState) (directReasons : List EligibilityReason)
    (body : BodyValidationState) : store.InsertCase header validation directReasons body
      (store.insert header validation directReasons body) := by
  have same := Coordinated.refl valid
  unfold insert
  split
  next found =>
    split
    next sameHeader =>
      exact .present found sameHeader
    · exact .failed same
  rename_i absent
  split
  · exact .failed same
  rename_i blockWork work
  split
  · exact .failed same
  rename_i parent parentFound
  split
  · exact .failed same
  rename_i height next
  have moved := childCoordinate_coordinated valid parent header.previousBlockHash
    validation blockWork
  split
  next run =>
    rw [run] at moved
    exact .failed moved
  rename_i run
  rw [run] at moved
  split
  · exact .failed moved
  obtain ⟨_, underFound, sum⟩ := childCoordinate_ok parentFound run
  obtain ⟨successor, bound⟩ := Height.next_eq_some.mp next
  exact .attached moved ⟨finish_revision _ _, moved.rows.attachment absent parentFound
    next underFound sum _ _, successor ▸ bound, rfl, rfl, rfl, work, rfl, rfl, rfl, rfl⟩

end

theorem tryInsertDirectReason_ok
    (inserted : eligibility.tryInsertDirectReason hash reason = .ok (changed, next)) :
    next.inheritedFrom = eligibility.inheritedFrom ∧ (changed = false → next = eligibility) := by
  unfold EligibilityState.tryInsertDirectReason at inserted
  split at inserted
  · obtain ⟨_, rfl⟩ := inserted
    exact ⟨rfl, fun _ => rfl⟩
  split at inserted
  · simp at inserted
  · obtain ⟨rfl, rfl⟩ := inserted
    exact ⟨rfl, by simp⟩

theorem addEligibilityReason_edited (valid : store.RepresentationInvariant)
    (found : store.nodes.lookup hash = some node)
    (inserted : node.eligibility.tryInsertDirectReason hash reason = .ok (changed, next)) :
    store.Edits (store.addEligibilityReason hash reason) hash (node.withEligibility next)
      changed := by
  obtain ⟨inherited, unchanged⟩ := tryInsertDirectReason_ok inserted
  have rewrite : store.view.RowRewrite hash node (node.withEligibility next) :=
    ⟨found, rfl, inherited⟩
  simp only [addEligibilityReason, found, inserted]
  apply finishEligibility_edited valid rewrite changed
  intro same
  rw [unchanged same]
  rfl

theorem withoutOperatorInvalidation_eq {id : OperatorInvalidationId} {evidence : Option EvidenceId}
    (same : (eligibility.withoutOperatorInvalidation id evidence).card =
      eligibility.directReasons.card) :
    eligibility.withoutOperatorInvalidation id evidence = eligibility.directReasons :=
  Finset.eq_of_subset_of_card_le (Finset.filter_subset _ _) same.ge

section

variable (valid : store.RepresentationInvariant) (found : store.nodes.lookup hash = some node)
include valid found

theorem removeOperatorInvalidation_edited (id : OperatorInvalidationId)
    (evidence : Option EvidenceId) :
    store.Edits (store.removeOperatorInvalidation hash id evidence) hash
      (node.withDirectReasons (node.eligibility.withoutOperatorInvalidation id evidence))
      (decide ((node.eligibility.withoutOperatorInvalidation id evidence).card ≠
        node.eligibility.directReasons.card)) := by
  have rewrite : store.view.RowRewrite hash node
      (node.withDirectReasons (node.eligibility.withoutOperatorInvalidation id evidence)) :=
    ⟨found, rfl, rfl⟩
  simp only [removeOperatorInvalidation, found]
  apply finishEligibility_edited valid rewrite
  intro same
  rw [withoutOperatorInvalidation_eq (by simpa using same)]
  rfl

theorem setHeaderValidationState_edited (validation : HeaderValidationState) :
    store.Edits (store.setHeaderValidationState hash validation) hash
      (node.withValidation validation) (decide (node.validation ≠ validation)) := by
  have rewrite : store.view.RowRewrite hash node (node.withValidation validation) :=
    ⟨found, rfl, rfl⟩
  simp only [setHeaderValidationState, found]
  apply finishEligibility_edited valid rewrite
  intro same
  obtain rfl : node.validation = validation := by simpa using same
  rfl

theorem recordAuxiliaryEvidenceDelivery_edited {deliveryId : EvidenceId}
    (fresh : deliveryId ∉ node.auxDeliveryIds) :
    store.Edits (store.recordAuxiliaryEvidenceDelivery hash deliveryId) hash
      (node.withDelivery deliveryId) true := by
  have rewrite : store.view.RowRewrite hash node (node.withDelivery deliveryId) :=
    ⟨found, rfl, rfl⟩
  simp only [recordAuxiliaryEvidenceDelivery, found, fresh, if_false]
  exact ⟨(putNode_edited valid rewrite rfl).finish true, finish_outcome _ true⟩

end

structure BodyEdited (store result : MemHeaderStore) (hash : Hash) (node : HeaderNode) : Prop where
  valid : result.RepresentationInvariant
  finalized : result.finalizedFrontier = store.finalizedFrontier
  preferred : result.preferredHeaderTip = store.preferredHeaderTip
  tombstones : result.consensusInvalidBodyTombstones =
    recordTombstone store.consensusInvalidBodyTombstones hash node.height node.bodyValidationState
  direct : SameDirect result.nodes.lookup (store.view.putRow hash node).find

theorem RowEdited.recordBody (edited : store.RowEdited staged hash node) :
    store.BodyEdited { staged with
      consensusInvalidBodyTombstones := recordTombstone staged.consensusInvalidBodyTombstones hash
        node.height node.bodyValidationState } hash node where
  valid := { edited.valid with }
  finalized := edited.frame.finalized
  preferred := edited.frame.preferred
  tombstones := by rw [edited.frame.tombstones]
  direct := edited.direct

theorem BodyEdited.finish (edited : store.BodyEdited result hash node) (value : Bool) :
    store.BodyEdited (result.finish value).2 hash node where
  valid := finish_invariant result value edited.valid
  finalized := (finish_frame result value).finalized.trans edited.finalized
  preferred := (finish_frame result value).preferred.trans edited.preferred
  tombstones := (finish_frame result value).tombstones.trans edited.tombstones
  direct := by
    change SameDirect (result.finish value).2.view.find _
    rw [finish_view]
    exact edited.direct

theorem setBodyValidationState_edited (valid : store.RepresentationInvariant)
    (found : store.nodes.lookup hash = some node) (body : BodyValidationState)
    (undecided : ¬((store.consensusInvalidBodyTombstones.lookup hash).isSome ∨
      node.bodyValidationState.isConsensusInvalid = true)) :
    store.BodyEdited (store.setBodyValidationState hash body).2 hash (node.withBody body) ∧
      ((store.setBodyValidationState hash body).1 = .ok (decide (node.bodyValidationState ≠ body)) ∨
        (store.setBodyValidationState hash body).1 = .error .revisionExhausted) := by
  have rewrite : store.view.RowRewrite hash node (node.withBody body) := ⟨found, rfl, rfl⟩
  obtain ⟨staged, run, edited⟩ : ∃ staged,
      (if node.isEligible ≠ (node.withBody body).isEligible then
        (store.putNode hash (node.withBody body)).recomputeDescendantEligibility hash
      else (.ok (), store.putNode hash (node.withBody body))) = (.ok (), staged) ∧
      store.RowEdited staged hash (node.withBody body) := by
    split
    · exact recomputeDescendantEligibility_spec valid rewrite
    next same =>
      exact ⟨_, rfl, putNode_edited valid rewrite (not_not.mp same)⟩
  have recorded := edited.recordBody
  simp only [setBodyValidationState, found, if_neg undecided, run]
  split
  next changed =>
    rw [changed]
    exact ⟨recorded.finish true, finish_outcome _ true⟩
  rename_i unchanged
  simp only [Bool.not_eq_true] at unchanged
  rw [unchanged]
  exact ⟨recorded, .inl rfl⟩

end MemHeaderStore

end Zakura.HeaderChain
