import Zakura.HeaderChain.DeltaRoundTrip
import Zakura.HeaderChain.OverlaySteps

/-!
Overlays stay publishable along the edits of a transition: insertions and state
edits first, then at most one finality advance, then leaf removals.
-/

namespace Zakura.HeaderChain

open FiniteMap Option MemHeaderStore

variable {store : MemHeaderStore} {overlay result : GraphOverlay}

namespace GraphOverlay

structure Staging (overlay : GraphOverlay) : Prop extends Publishable overlay where
  unmoved : overlay.finalizedFrontier = overlay.base.finalizedFrontier
  undeleted : overlay.deletedHeaderHashes = ∅
  unretired : overlay.retiredInsertedNodes = ∅

theorem Staging.edited (staging : overlay.Staging) (valid : result.Invariant)
    (base : result.base = overlay.base) (baseRevision : result.baseRevision = overlay.baseRevision)
    (finalized : result.finalizedFrontier = overlay.finalizedFrontier)
    (deleted : result.deletedHeaderHashes = overlay.deletedHeaderHashes)
    (retired : result.retiredInsertedNodes = overlay.retiredInsertedNodes)
    (rebased : result.workCoordinatesRebased = overlay.workCoordinatesRebased)
    (tombstones : ∀ {hash row},
      result.newConsensusInvalidBodyTombstonesByHash.lookup hash = some row →
        row.hash = hash ∧ overlay.base.consensusInvalidBodyTombstones.lookup hash = none)
    (rows : ∀ {hash node}, result.headerNode hash = some node →
      ∃ former, overlay.headerNode hash = some former ∧ SameImmutable node former ∧
        (former.bodyValidationState.isConsensusInvalid = true →
          node.bodyValidationState = former.bodyValidationState))
    (verdicts : ∀ {hash node}, result.headerNode hash = some node →
      VerdictAgrees node.bodyValidationState (result.tombstone hash)) : result.Staging := by
  have unmoved : result.finalizedFrontier = result.base.finalizedFrontier := by
    rw [finalized, base]
    exact staging.unmoved
  have unretired : result.retiredInsertedNodes = ∅ := retired.trans staging.unretired
  refine ⟨⟨valid, ?_, ?_, ?_, ?_, verdicts, ?_, ?_, .inl unmoved⟩, unmoved,
    deleted.trans staging.undeleted, unretired⟩
  · rw [baseRevision, base]
    exact staging.revision
  · rw [base]
    intro anchor hash old node anchorFound stored found
    obtain ⟨former, formerFound, same, body⟩ := rows found
    have replaces := staging.replaces anchorFound stored formerFound
    refine ⟨same.header.trans replaces.header, same.parentHash.trans replaces.parentHash,
      same.height.trans replaces.height, same.blockWork.trans replaces.blockWork, ?_, ?_, ?_⟩
    · intro verdict
      have kept := replaces.verdict verdict
      rw [body (kept ▸ verdict), kept]
    · rw [rebased, same.workCoordinate]
      exact replaces.kept
    · rw [rebased, same.workCoordinate, base]
      exact replaces.moved
  · rw [rebased, base]
    intro moved hash node found
    obtain ⟨former, formerFound, same, _⟩ := rows found
    rw [same.workCoordinate]
    exact staging.origins moved formerFound
  · intro hash node found
    obtain ⟨former, formerFound, same, _⟩ := rows found
    rw [same.header, same.parentHash, same.blockWork]
    exact staging.canonical formerFound
  · rw [base]
    exact tombstones
  · intro hash node found
    simp [unretired] at found

section

variable (staging : overlay.Staging)
include staging

theorem Staging.stateEdited (edited : overlay.StateEdited result) : result.Staging := by
  cases edited with
  | unchanged same => exact same ▸ staging
  | row rewrite body edited =>
    have rewritten := edited.rewritten
    have tombstone := tombstone_congr rewritten.tombstones rewritten.base
    refine staging.edited edited.valid rewritten.base rewritten.baseRevision rewritten.finalized
      rewritten.deleted rewritten.retired edited.rebased ?_ ?_ ?_
    · intro query row recorded
      exact staging.tombstones (rewritten.tombstones ▸ recorded)
    · intro query row found
      obtain ⟨former, formerFound, same, rowBody⟩ := rewrite.row_of_body body edited.direct found
      exact ⟨former, formerFound, same, fun _ => rowBody⟩
    intro query row found
    obtain ⟨former, formerFound, _, rowBody⟩ := rewrite.row_of_body body edited.direct found
    rw [tombstone, rowBody]
    exact staging.verdicts formerFound
  | body state atHash noTombstone undecided edited =>
    rename_i hash node
    have rewrite : overlay.view.RowRewrite hash node (node.withBody state) := ⟨atHash, rfl, rfl⟩
    have unrecorded : overlay.base.consensusInvalidBodyTombstones.lookup hash = none := by
      unfold tombstone at noTombstone
      split at noTombstone
      · simp at noTombstone
      · exact noTombstone
    refine staging.edited edited.valid edited.base edited.baseRevision edited.finalized
      edited.deleted edited.retired edited.rebased ?_ ?_ ?_
    · intro query row recorded
      rw [edited.tombstones, lookup_recordTombstone] at recorded
      split at recorded
      next written =>
        rw [written.1]
        exact ⟨(tombstone_eq_some recorded).2.2.2, unrecorded⟩
      · exact staging.tombstones recorded
    · intro query row found
      obtain ⟨former, formerFound, same, rowBody⟩ := rewrite.row edited.direct found
      refine ⟨former, formerFound, same, fun verdict => ?_⟩
      rw [rowBody, if_neg]
      rintro rfl
      rw [← mem_unique atHash formerFound, undecided] at verdict
      simp at verdict
    intro query row found
    obtain ⟨former, formerFound, _, rowBody⟩ := rewrite.row edited.direct found
    rw [edited.tombstone, rowBody]
    by_cases same : query = hash
    · subst same
      rw [if_pos rfl]
      change VerdictAgrees state (if query = query ∧ (state.tombstone query node.height).isSome
        then state.tombstone query node.height else overlay.tombstone query)
      rw [noTombstone]
      cases state <;> simp [VerdictAgrees, BodyValidationState.tombstone,
        BodyValidationState.isConsensusInvalid, ConsensusInvalidBodyTombstone.bodyState]
    · rw [if_neg same, if_neg (fun written => same written.1)]
      exact staging.verdicts formerFound

theorem Staging.rebaseAll {anchor : HeaderNode}
    (rootFound : overlay.headerNode overlay.finalizedFrontier.hash = some anchor) :
    (overlay.rebaseAll anchor.workCoordinate).Staging := by
  have valid := staging.valid
  obtain ⟨rewritten, rebased⟩ := rebaseAll_spec valid anchor.workCoordinate
  have tombstone := tombstone_congr rewritten.tombstones rewritten.base
  have unmoved : (overlay.rebaseAll anchor.workCoordinate).finalizedFrontier =
      (overlay.rebaseAll anchor.workCoordinate).base.finalizedFrontier := by
    rw [rewritten.finalized, rewritten.base]
    exact staging.unmoved
  have row {hash : Hash} {node : HeaderNode}
      (found : (overlay.rebaseAll anchor.workCoordinate).headerNode hash = some node) :
      ∃ former, overlay.headerNode hash = some former ∧ node = { former with
        workCoordinate := {
          originHash := overlay.base.finalizedFrontier.hash
          cumulative := former.workCoordinate.cumulative - anchor.workCoordinate.cumulative } } := by
    obtain ⟨former, formerFound, same⟩ := rebased.found found
    refine ⟨former, formerFound, ?_⟩
    rw [same, valid.coherent.rebaseNode_eq rootFound formerFound]
    change { former with workCoordinate := ⟨overlay.finalizedFrontier.hash, _⟩ } = _
    rw [staging.unmoved]
  have unretired : (overlay.rebaseAll anchor.workCoordinate).retiredInsertedNodes = ∅ :=
    rewritten.retired.trans staging.unretired
  refine ⟨⟨rebaseAll_invariant valid rootFound, ?_, ?_, ?_, ?_, ?_, ?_, ?_, .inl unmoved⟩,
    unmoved, rewritten.deleted.trans staging.undeleted, unretired⟩
  · rw [rewritten.baseRevision, rewritten.base]
    exact staging.revision
  · rw [rewritten.base]
    intro root hash old node baseRootFound stored found
    obtain ⟨former, formerFound, rfl⟩ := row found
    have replaces := staging.replaces baseRootFound stored formerFound
    rw [staging.unmoved] at rootFound
    have rootReplaces := staging.replaces baseRootFound baseRootFound rootFound
    refine { replaces with
      kept := fun kept => by simp [GraphOverlay.rebaseAll] at kept, moved := fun _ => ?_ }
    rw [rewritten.base]
    have expected := valid.base.coherent.rebasedCoordinate_eq baseRootFound stored
    refine expected.trans ?_
    have distance : old.workCoordinate.cumulative - root.workCoordinate.cumulative =
        former.workCoordinate.cumulative - anchor.workCoordinate.cumulative := by
      cases flag : overlay.workCoordinatesRebased with
      | false => rw [replaces.kept flag, rootReplaces.kept flag]
      | true =>
        have formerMoved := replaces.moved flag
        have anchorMoved := rootReplaces.moved flag
        have rootExpected := valid.base.coherent.rebasedCoordinate_eq baseRootFound baseRootFound
        change rebasedCoordinate overlay.base.finalizedFrontier.hash _ _ = _ at expected
        change rebasedCoordinate overlay.base.finalizedFrontier.hash _ _ = _ at rootExpected
        rw [expected, Except.ok.injEq] at formerMoved
        rw [rootExpected, Except.ok.injEq] at anchorMoved
        rw [← formerMoved, ← anchorMoved]
        simp
    rw [distance]
    rfl
  · rw [rewritten.base]
    intro _ hash node found
    obtain ⟨former, _, rfl⟩ := row found
    rfl
  · intro hash node found
    obtain ⟨former, formerFound, rfl⟩ := row found
    have canonical := staging.canonical formerFound
    exact canonical
  · intro hash node found
    obtain ⟨former, formerFound, rfl⟩ := row found
    have agrees := staging.verdicts formerFound
    rw [tombstone]
    exact agrees
  · intro hash row recorded
    rw [rewritten.base]
    exact staging.tombstones (rewritten.tombstones ▸ recorded)
  · intro hash node found
    simp [unretired] at found

theorem Staging.attach [HeaderHasher] {header : Header} {body : BodyValidationState}
    {node parent : HeaderNode} (inserted : overlay.Inserted result header body node parent)
    (undecided : body.isConsensusInvalid = false) : result.Staging := by
  have valid := staging.valid
  have attachment := inserted.attachment
  have absent : overlay.headerNode node.hash = none := attachment.fresh
  have notStored : overlay.base.nodes.lookup node.hash = none := by
    by_contra stored
    obtain ⟨old, oldFound⟩ := ne_none_iff_exists'.mp stored
    unfold headerNode at absent
    rw [staging.undeleted] at absent
    simp only [Finset.notMem_empty, if_false] at absent
    split at absent
    · simp at absent
    · simp [oldFound] at absent
  have allowed : overlay.AttachAllowed node.hash := by
    constructor
    · intro same
      obtain ⟨root, rootFound, _⟩ := valid.base.coherent.root
      change overlay.base.nodes.lookup overlay.base.finalizedFrontier.hash = _ at rootFound
      rw [← same, notStored] at rootFound
      simp at rootFound
    · intro moved
      exact absurd (congrArg Frontier.hash staging.unmoved) moved
  have frame := attach_frame overlay node
  have find := attach_headerNode overlay node
  rw [inserted.attached]
  have tombstone := tombstone_congr frame.tombstones frame.base
  have unmoved : (overlay.attach node).finalizedFrontier =
      (overlay.attach node).base.finalizedFrontier := by
    rw [frame.finalized, frame.base]
    exact staging.unmoved
  have unretired : (overlay.attach node).retiredInsertedNodes = ∅ := by
    rw [frame.retired, staging.unretired]
    rfl
  have undeleted : (overlay.attach node).deletedHeaderHashes = ∅ := by
    rw [frame.deleted, staging.undeleted]
    rfl
  refine ⟨⟨attach_invariant valid allowed attachment inserted.bound, ?_, ?_, ?_, ?_, ?_, ?_, ?_,
    .inl unmoved⟩, unmoved, undeleted, unretired⟩
  · rw [frame.baseRevision, frame.base]
    exact staging.revision
  · rw [frame.base]
    intro anchor hash old row anchorFound stored found
    rw [find] at found
    split at found
    next same =>
      rw [same, notStored] at stored
      simp at stored
    · have replaces := staging.replaces anchorFound stored found
      exact { replaces with
        kept := frame.rebased ▸ replaces.kept, moved := frame.rebased ▸ frame.base ▸ replaces.moved }
  · rw [frame.base, frame.rebased]
    intro moved hash row found
    rw [find] at found
    split at found
    · simp only [some.injEq] at found
      rw [← found, (WorkCoordinate.checkedAdd_eq_ok.mp attachment.work).1]
      exact staging.origins moved attachment.parentFound
    · exact staging.origins moved found
  · intro hash row found
    rw [find] at found
    split at found
    · cases found
      exact ⟨by rw [inserted.ofHeader, inserted.parentHash], by rw [inserted.ofHeader, inserted.work]⟩
    · exact staging.canonical found
  · intro hash row found
    rw [tombstone]
    rw [find, ite_eq_some] at found
    rcases found with ⟨same, rfl⟩ | ⟨_, found⟩
    · rw [same, inserted.verdict, inserted.hash]
      cases overlay.tombstone header.hash with
      | none => exact undecided
      | some row => rfl
    · exact staging.verdicts found
  · intro hash row recorded
    rw [frame.base]
    exact staging.tombstones (frame.tombstones ▸ recorded)
  · intro hash row found
    simp [unretired] at found

theorem Staging.insert [HeaderHasher] (header : Header) (validation : HeaderValidationState)
    (directReasons : List EligibilityReason) (body : BodyValidationState)
    (undecided : body.isConsensusInvalid = false) :
    (overlay.insert header validation directReasons body).2.Staging := by
  obtain ⟨_, rootFound, _⟩ := staging.valid.coherent.root
  obtain ⟨middle, moved, outcome⟩ := insert_cases staging.valid header validation
    directReasons body rootFound
  have ready : middle.Staging := by
    rcases moved with rfl | rfl
    · exact staging
    · exact staging.rebaseAll rootFound
  rcases outcome with same | ⟨_, _, inserted⟩
  · exact same ▸ ready
  · exact ready.attach inserted undecided

end

section

variable {hash : Hash} {node : HeaderNode}

def links (overlay : GraphOverlay) (hash : Hash) : Option (Nat × Hash) :=
  (overlay.resolve hash).map fun node => (node.height, node.parentHash)

theorem descendantWalk_links (base : result.base = overlay.base)
    (same : ∀ hash, result.links hash = overlay.links hash) (steps : Nat) (cursor : Frontier) :
    result.descendantWalk steps cursor = overlay.descendantWalk steps cursor := by
  induction steps generalizing cursor with
  | zero => rfl
  | succ steps ih =>
    have agree := same cursor.hash
    unfold links at agree
    simp only [descendantWalk, base]
    cases old : overlay.resolve cursor.hash with
    | none =>
      cases new : result.resolve cursor.hash with
      | none => rfl
      | some row => simp [old, new] at agree
    | some former =>
      cases new : result.resolve cursor.hash with
      | none => simp [old, new] at agree
      | some row =>
        simp only [old, new, map_some, some.injEq, Prod.mk.injEq] at agree
        simp [agree, ih]

/-- What deletions rely on and keep, also while the graph is not coherent between two of them. -/
structure Deletable (overlay : GraphOverlay) : Prop where
  keyed : ∀ {hash node}, overlay.headerNode hash = some node → node.hash = hash
  linked : ∀ {hash old node}, overlay.base.nodes.lookup hash = some old →
    overlay.headerNode hash = some node →
      node.height = old.height ∧ node.parentHash = old.parentHash
  retired : ∀ {hash node}, overlay.retiredInsertedNodes.lookup hash = some node →
    node.hash = hash ∧ overlay.base.nodes.lookup hash = none ∧
      overlay.updatedHeaderNodesByHash.lookup hash = none

theorem Publishable.deletable (publishable : overlay.Publishable) : overlay.Deletable where
  keyed := publishable.valid.coherent.keyed
  linked := by
    intro hash old node stored found
    obtain ⟨_, _, same⟩ := publishable.replacement stored found
    exact ⟨same.height, same.parentHash⟩
  retired := publishable.retired

theorem resolve_visible (found : overlay.headerNode hash = some node) :
    overlay.resolve hash = some node := by
  obtain ⟨_, staged | ⟨unstaged, stored⟩⟩ := headerNode_eq_some.mp found
  · simp [resolve, staged]
  · simp [resolve, unstaged, stored]

theorem DeleteFrame.links (frame : overlay.DeleteFrame result hash node)
    (deletable : overlay.Deletable) (found : overlay.headerNode hash = some node) (query : Hash) :
    result.links query = overlay.links query := by
  unfold GraphOverlay.links
  by_cases same : query = hash
  · subst query
    rw [resolve_visible found]
    unfold resolve
    rw [frame.updated, frame.base, frame.retired, lookup_erase_ite, if_pos rfl]
    cases stored : overlay.base.nodes.lookup hash with
    | some old =>
      obtain ⟨height, link⟩ := deletable.linked stored found
      simp [height, link]
    | none =>
      have unknown : hash ∉ overlay.base.nodes.keys := by
        rw [mem_keys_iff, stored]
        simp
      rw [if_neg unknown, lookup_insert_ite, if_pos rfl]
      rfl
  · unfold resolve
    rw [frame.updated, frame.base, frame.retired, lookup_erase_ite, if_neg same]
    split
    · rfl
    · rw [lookup_insert_ite, if_neg same]

theorem DeleteFrame.deletable (frame : overlay.DeleteFrame result hash node)
    (deletable : overlay.Deletable) (found : overlay.headerNode hash = some node) :
    result.Deletable := by
  have earlier {query : Hash} {row : HeaderNode} (kept : result.headerNode query = some row) :
      overlay.headerNode query = some row := by
    rw [frame.headerNode, ite_none_left_eq_some] at kept
    exact kept.2
  refine ⟨fun kept => deletable.keyed (earlier kept), ?_, ?_⟩
  · rw [frame.base]
    exact fun stored kept => deletable.linked stored (earlier kept)
  intro query row retired
  rw [frame.updated, frame.base, lookup_erase_ite]
  rw [frame.retired] at retired
  have old (former : overlay.retiredInsertedNodes.lookup query = some row) :
      row.hash = query ∧ overlay.base.nodes.lookup query = none ∧
        (if query = hash then none else overlay.updatedHeaderNodesByHash.lookup query) = none := by
    obtain ⟨keyed, fresh, unstaged⟩ := deletable.retired former
    refine ⟨keyed, fresh, ?_⟩
    rw [unstaged]
    split <;> rfl
  split at retired
  · exact old retired
  rename_i unknown
  rcases lookup_insert_eq_some.mp retired with ⟨rfl, rfl⟩ | ⟨_, retired⟩
  · refine ⟨deletable.keyed found, ?_, if_pos rfl⟩
    by_contra stored
    exact unknown (mem_keys_iff.mpr (ne_none_iff_exists'.mp stored))
  · exact old retired

theorem deleteHeaderNodes_deletable {hashes : List Hash} (deletable : overlay.Deletable)
    (run : overlay.deleteHeaderNodes hashes = (.ok (), result)) :
    result.Deletable ∧ result.base = overlay.base ∧
      ∀ query, result.links query = overlay.links query := by
  induction hashes generalizing overlay with
  | nil =>
    simp only [deleteHeaderNodes, Prod.mk.injEq, true_and] at run
    exact run ▸ ⟨deletable, rfl, fun _ => rfl⟩
  | cons hash rest ih =>
    cases found : overlay.headerNode hash with
    | none => simp [deleteHeaderNodes, deleteHeaderNode, found] at run
    | some node =>
      obtain ⟨_, step, frame⟩ := deleteHeaderNode_spec found
      simp only [deleteHeaderNodes, step] at run
      obtain ⟨last, base, same⟩ := ih (frame.deletable deletable found) run
      refine ⟨last, base.trans frame.base, fun query => ?_⟩
      rw [same, frame.links deletable found]

theorem moveRoot_deletable {finalized : Frontier} (deletable : overlay.Deletable)
    (found : overlay.headerNode finalized.hash = some node) :
    (overlay.moveRoot finalized node).Deletable ∧
      ∀ query, (overlay.moveRoot finalized node).links query = overlay.links query := by
  have updated : (overlay.moveRoot finalized node).updatedHeaderNodesByHash =
      overlay.updatedHeaderNodesByHash.insert finalized.hash (node.withInheritedFrom none) := rfl
  have movedFound : ({ overlay with finalizedFrontier := finalized } : GraphOverlay).headerNode
      finalized.hash = some node := found
  have find (query : Hash) : (overlay.moveRoot finalized node).headerNode query =
      if query = finalized.hash then some (node.withInheritedFrom none)
      else overlay.headerNode query := stage_headerNode movedFound query
  refine ⟨⟨?_, ?_, ?_⟩, ?_⟩
  · intro query row kept
    rw [find, ite_eq_some] at kept
    rcases kept with ⟨same, rfl⟩ | ⟨_, kept⟩
    · have keyed := deletable.keyed found
      exact keyed.trans same.symm
    · exact deletable.keyed kept
  · intro query old row stored kept
    rw [find, ite_eq_some] at kept
    rcases kept with ⟨rfl, rfl⟩ | ⟨_, kept⟩
    · have linked := deletable.linked stored found
      exact linked
    · exact deletable.linked stored kept
  · intro query row retired
    obtain ⟨keyed, fresh, unstaged⟩ := deletable.retired retired
    refine ⟨keyed, fresh, ?_⟩
    rw [updated, lookup_insert_ite, if_neg]
    · exact unstaged
    rintro rfl
    obtain ⟨_, staged | ⟨_, stored⟩⟩ := headerNode_eq_some.mp found
    · simp [unstaged] at staged
    · simp [fresh] at stored
  intro query
  unfold links resolve
  rw [updated, lookup_insert_ite]
  split
  next same =>
    subst same
    have visible := resolve_visible found
    unfold resolve at visible
    rw [visible]
    rfl
  · rfl

theorem Staging.walk (staging : overlay.Staging) (steps : Nat) {cursor : Frontier}
    (found : overlay.headerNode cursor.hash = some node) (height : node.height = cursor.height)
    (distance : cursor.height = overlay.base.finalizedFrontier.height + steps) :
    overlay.descendantWalk steps cursor = .ok overlay.base.finalizedFrontier := by
  have shaped := staging.valid.coherent.toShaped
  induction steps generalizing cursor node with
  | zero =>
    have atRoot : cursor.hash = overlay.finalizedFrontier.hash :=
      shaped.eq_root_of_height found (by
        rw [height, distance]
        exact congrArg Frontier.height staging.unmoved.symm)
    rw [staging.unmoved] at atRoot
    simp [descendantWalk, Frontier.ext distance atRoot]
  | succ steps ih =>
    have above : ¬cursor.height ≤ overlay.base.finalizedFrontier.height := by omega
    have notRoot : cursor.hash ≠ overlay.finalizedFrontier.hash := by
      intro same
      rw [same] at found
      have rootHeight := shaped.root_height found
      have unmoved := congrArg Frontier.height staging.unmoved
      change node.height = overlay.finalizedFrontier.height at rootHeight
      omega
    obtain ⟨parent, parentFound, _⟩ := shaped.parent found notRoot
    simp only [descendantWalk, above, if_false, resolve_visible found, height, ne_eq,
      not_true_eq_false]
    exact ih parentFound (by simp only; omega) (by simp only; omega)

end

theorem Publishable.shrunk (publishable : overlay.Publishable) (valid : result.Invariant)
    (base : result.base = overlay.base) (baseRevision : result.baseRevision = overlay.baseRevision)
    (rebased : result.workCoordinatesRebased = overlay.workCoordinatesRebased)
    (tombstones : result.newConsensusInvalidBodyTombstonesByHash =
      overlay.newConsensusInvalidBodyTombstonesByHash)
    (earlier : ∀ {hash node}, result.headerNode hash = some node →
      overlay.headerNode hash = some node) (deletable : result.Deletable)
    (advanced : result.finalizedFrontier = overlay.base.finalizedFrontier ∨
      overlay.base.finalizedFrontier.height < result.finalizedFrontier.height ∧
        result.descendantWalk
          (result.finalizedFrontier.height - overlay.base.finalizedFrontier.height)
          result.finalizedFrontier = .ok overlay.base.finalizedFrontier ∧
        ∀ {root}, result.headerNode result.finalizedFrontier.hash = some root →
          result.headerNode root.parentHash = none) : result.Publishable := by
  refine ⟨valid, ?_, ?_, ?_, fun kept => publishable.canonical (earlier kept), ?_, ?_,
    deletable.retired, base ▸ advanced⟩
  · rw [baseRevision, base]
    exact publishable.revision
  · rw [base]
    intro anchor hash old node anchorFound stored kept
    have replaces := publishable.replaces anchorFound stored (earlier kept)
    exact { replaces with
      kept := rebased ▸ replaces.kept, moved := rebased ▸ base ▸ replaces.moved }
  · rw [base, rebased]
    exact fun moved _ _ kept => publishable.origins moved (earlier kept)
  · intro hash node kept
    rw [tombstone_congr tombstones base]
    exact publishable.verdicts (earlier kept)
  · intro hash row recorded
    rw [base]
    exact publishable.tombstones (tombstones ▸ recorded)

theorem Staging.advanceFinalizedFrontier (staging : overlay.Staging) (finalized : Frontier) :
    (overlay.advanceFinalizedFrontier finalized).2.Publishable := by
  have shaped := staging.valid.coherent.toShaped
  rcases advanceFinalizedFrontier_cases staging.valid finalized with same |
    ⟨node, _, _, found, height, _, run, rootFound, whole, advanced⟩
  · rw [same]
    exact staging.toPublishable
  have deletions := deleteHeaderNodes_deletable staging.deletable run
  obtain ⟨hiddenDeletable, _, hiddenLinks⟩ := deletions
  obtain ⟨deletable, movedLinks⟩ := moveRoot_deletable hiddenDeletable rootFound
  have sameLinks (query : Hash) :
      (overlay.advanceFinalizedFrontier finalized).2.links query = overlay.links query := by
    rw [whole, movedLinks, hiddenLinks]
  generalize (overlay.advanceFinalizedFrontier finalized).2 = result at whole advanced sameLinks
  refine staging.toPublishable.shrunk advanced.valid advanced.base advanced.baseRevision
    advanced.rebased advanced.tombstones (fun kept => ((advanced.find _ _).mp kept).2)
    (whole ▸ deletable) ?_
  rw [advanced.root]
  by_cases same : finalized = overlay.base.finalizedFrontier
  · exact .inl same
  right
  have unmovedHeight := congrArg Frontier.height staging.unmoved
  have notRoot : finalized.hash ≠ overlay.finalizedFrontier.hash := by
    intro atRoot
    have rootHeight := shaped.root_height (atRoot ▸ found)
    exact same ((Frontier.ext (height.symm.trans rootHeight) atRoot).trans staging.unmoved)
  have higher := shaped.above_root found notRoot
  change overlay.finalizedFrontier.height < node.height at higher
  refine ⟨by omega, ?_, ?_⟩
  · rw [descendantWalk_links advanced.base sameLinks]
    exact staging.walk _ found height (by omega)
  intro root kept
  have rowFound := ((advanced.find _ _).mp kept).2
  obtain rfl := mem_unique found rowFound
  obtain ⟨parent, parentFound, _⟩ := shaped.parent found notRoot
  by_contra visible
  obtain ⟨_, rowKept⟩ := ne_none_iff_exists'.mp visible
  have bound := advanced.valid.coherent.toShaped.root_le rowKept
  have old := ((advanced.find _ _).mp rowKept).2
  obtain rfl := mem_unique parentFound old
  change result.finalizedFrontier.height ≤ _ at bound
  rw [advanced.root] at bound
  omega

theorem Publishable.removeHeaderLeaf (publishable : overlay.Publishable) (hash : Hash)
    (notRoot : hash ≠ overlay.finalizedFrontier.hash) :
    (overlay.removeHeaderLeaf hash).2.Publishable ∧
      (overlay.removeHeaderLeaf hash).2.finalizedFrontier = overlay.finalizedFrontier ∧
      (overlay.removeHeaderLeaf hash).2.base = overlay.base := by
  rcases removeHeaderLeaf_cases overlay hash with same | ⟨_, found, leaf, frame⟩
  · rw [same]
    exact ⟨publishable, rfl, rfl⟩
  refine ⟨?_, frame.finalized, frame.base⟩
  have earlier {query : Hash} {row : HeaderNode}
      (kept : (overlay.removeHeaderLeaf hash).2.headerNode query = some row) :
      overlay.headerNode query = some row := by
    rw [frame.headerNode, ite_none_left_eq_some] at kept
    exact kept.2
  refine publishable.shrunk (frame.leaf_invariant publishable.valid found leaf notRoot) frame.base
    frame.baseRevision frame.rebased frame.tombstones earlier
    (frame.deletable publishable.deletable found) ?_
  rw [frame.finalized]
  rcases publishable.advanced with same | ⟨higher, walk, orphan⟩
  · exact .inl same
  refine .inr ⟨higher, ?_, ?_⟩
  · rw [descendantWalk_links frame.base (frame.links publishable.deletable found)]
    exact walk
  intro root kept
  rw [frame.headerNode]
  split
  · rfl
  · exact orphan (earlier kept)

def runEdits [HeaderHasher] (overlay : GraphOverlay) (edits : List HeaderGraphEdit) :
    GraphOverlay :=
  edits.foldl (fun staged edit => (staged.applyEdit edit).2) overlay

end GraphOverlay

/-- Insertions and state edits. An insertion does not bring a permanent verdict of its own. -/
def HeaderGraphEdit.IsStaging : HeaderGraphEdit → Prop
  | .insertHeader _ _ _ body => body.isConsensusInvalid = false
  | .advanceFinalizedFrontier _ | .removeHeaderLeaf _ => False
  | _ => True

structure PlannedEdits where
  staged : List HeaderGraphEdit
  finality : Option Frontier
  evicted : List Hash

def PlannedEdits.toList (planned : PlannedEdits) : List HeaderGraphEdit :=
  planned.staged ++ planned.finality.toList.map HeaderGraphEdit.advanceFinalizedFrontier ++
    planned.evicted.map HeaderGraphEdit.removeHeaderLeaf

namespace GraphOverlay

theorem Staging.applyEdit [HeaderHasher] (staging : overlay.Staging) {edit : HeaderGraphEdit}
    (staged : edit.IsStaging) : (overlay.applyEdit edit).2.Staging := by
  have valid := staging.valid
  cases edit with
  | insertHeader header validation directReasons body =>
    exact staging.insert header validation directReasons body staged
  | addEligibilityReason hash reason =>
    exact staging.stateEdited (addEligibilityReason_stateEdited valid hash reason)
  | removeOperatorInvalidation hash id evidence =>
    exact staging.stateEdited (removeOperatorInvalidation_stateEdited valid hash id evidence)
  | setBodyValidationState hash body =>
    exact staging.stateEdited (setBodyValidationState_stateEdited valid hash body)
  | setHeaderValidationState hash validation =>
    exact staging.stateEdited (setHeaderValidationState_stateEdited valid hash validation)
  | recordAuxiliaryEvidenceDelivery hash deliveryId =>
    exact staging.stateEdited (recordAuxiliaryEvidenceDelivery_stateEdited valid hash deliveryId)
  | advanceFinalizedFrontier | removeHeaderLeaf => exact staged.elim

theorem Staging.runEdits [HeaderHasher] (staging : overlay.Staging) {edits : List HeaderGraphEdit}
    (staged : ∀ edit ∈ edits, edit.IsStaging) :
    (overlay.runEdits edits).Staging ∧ (overlay.runEdits edits).base = overlay.base := by
  induction edits generalizing overlay with
  | nil => exact ⟨staging, rfl⟩
  | cons edit rest ih =>
    obtain ⟨done, base⟩ := ih (staging.applyEdit (staged edit (by simp)))
      (fun other member => staged other (by simp [member]))
    exact ⟨done, base.trans (applyEdit_base staging.valid edit)⟩

theorem Publishable.evict [HeaderHasher] (publishable : overlay.Publishable) (hashes : List Hash)
    (keepsRoot : ∀ hash ∈ hashes, hash ≠ overlay.finalizedFrontier.hash) :
    (overlay.runEdits (hashes.map HeaderGraphEdit.removeHeaderLeaf)).Publishable ∧
      (overlay.runEdits (hashes.map HeaderGraphEdit.removeHeaderLeaf)).base = overlay.base := by
  induction hashes generalizing overlay with
  | nil => exact ⟨publishable, rfl⟩
  | cons hash rest ih =>
    obtain ⟨next, root, base⟩ := publishable.removeHeaderLeaf hash (keepsRoot hash (by simp))
    obtain ⟨done, same⟩ := ih next (fun other member => by
      rw [root]
      exact keepsRoot other (by simp [member]))
    exact ⟨done, same.trans base⟩

end GraphOverlay

structure MemHeaderStore.Canonical (store : MemHeaderStore) : Prop where
  headers : ∀ {hash node}, store.nodes.lookup hash = some node →
    node.header.previousBlockHash = node.parentHash ∧
      node.header.difficultyThreshold.toWork = some node.blockWork
  verdicts : ∀ {hash node}, store.nodes.lookup hash = some node →
    VerdictAgrees node.bodyValidationState (store.consensusInvalidBodyTombstones.lookup hash)

namespace GraphOverlay

theorem new_staging (valid : store.RepresentationInvariant) (canonical : store.Canonical) :
    (new store).Staging := by
  refine ⟨⟨new_invariant valid, rfl, ?_, ?_, ?_, ?_, ?_, ?_, .inl rfl⟩, rfl, rfl, rfl⟩
  · intro anchor hash old node anchorFound stored found
    obtain rfl := mem_unique stored found
    exact ⟨rfl, rfl, rfl, rfl, fun _ => rfl, fun _ => rfl, fun moved => by simp [new] at moved⟩
  · intro moved
    simp [new] at moved
  · intro hash node found
    exact canonical.headers found
  · intro hash node found
    exact canonical.verdicts found
  · simp [new]
  · simp [new]

theorem evict_finalized [HeaderHasher] (overlay : GraphOverlay) (hashes : List Hash) :
    (overlay.runEdits (hashes.map HeaderGraphEdit.removeHeaderLeaf)).finalizedFrontier =
      overlay.finalizedFrontier := by
  induction hashes generalizing overlay with
  | nil => rfl
  | cons hash rest ih =>
    refine (ih _).trans ?_
    change (overlay.removeHeaderLeaf hash).2.finalizedFrontier = _
    rcases removeHeaderLeaf_cases overlay hash with same | ⟨_, _, _, frame⟩
    · rw [same]
    · exact frame.finalized

theorem runEdits_append [HeaderHasher] (overlay : GraphOverlay)
    (first second : List HeaderGraphEdit) :
    overlay.runEdits (first ++ second) = (overlay.runEdits first).runEdits second :=
  List.foldl_append

theorem planned_publishable [HeaderHasher] (valid : store.RepresentationInvariant)
    (canonical : store.Canonical) (planned : PlannedEdits)
    (staged : ∀ edit ∈ planned.staged, edit.IsStaging)
    (keepsRoot : ∀ hash ∈ planned.evicted, hash ≠ ((new store).runEdits
      planned.toList).finalizedFrontier.hash) : ((new store).runEdits planned.toList).Publishable ∧
      ((new store).runEdits planned.toList).base = store := by
  obtain ⟨staging, stagedBase⟩ := (new_staging valid canonical).runEdits staged
  rw [PlannedEdits.toList, runEdits_append, runEdits_append] at keepsRoot ⊢
  generalize (new store).runEdits planned.staged = middle at staging stagedBase keepsRoot ⊢
  obtain ⟨advanced, base⟩ : (middle.runEdits (planned.finality.toList.map
      HeaderGraphEdit.advanceFinalizedFrontier)).Publishable ∧
      (middle.runEdits (planned.finality.toList.map
        HeaderGraphEdit.advanceFinalizedFrontier)).base = store := by
    cases planned.finality with
    | none => exact ⟨staging.toPublishable, stagedBase⟩
    | some finalized =>
      refine ⟨staging.advanceFinalizedFrontier finalized, ?_⟩
      have base := applyEdit_base staging.valid (.advanceFinalizedFrontier finalized)
      exact base.trans stagedBase
  rw [evict_finalized] at keepsRoot
  obtain ⟨done, same⟩ := advanced.evict planned.evicted keepsRoot
  exact ⟨done, same.trans base⟩

end GraphOverlay

/-- The delta of a planned transition rebuilds the overlay's graph and brings the store to it.
A delta the store rejects, planned or not, leaves the store as it was. -/
theorem MemHeaderStore.delta_round_trip [HeaderHasher] {store : MemHeaderStore}
    (valid : store.RepresentationInvariant) (canonical : store.Canonical) (planned : PlannedEdits)
    (staged : ∀ edit ∈ planned.staged, edit.IsStaging)
    (keepsRoot : ∀ hash ∈ planned.evicted,
      hash ≠ ((GraphOverlay.new store).runEdits planned.toList).finalizedFrontier.hash)
    (rootEligible : (((GraphOverlay.new store).runEdits planned.toList).headerNode
      ((GraphOverlay.new store).runEdits planned.toList).finalizedFrontier.hash).any
        HeaderNode.isEligible = true)
    (revision : store.graphRevision + 1 < revisionBound) :
    (∃ rebuilt, GraphOverlay.fromDelta store
        ((GraphOverlay.new store).runEdits planned.toList).delta = .ok rebuilt ∧
      rebuilt.view = ((GraphOverlay.new store).runEdits planned.toList).view) ∧
    (store.applyDelta ((GraphOverlay.new store).runEdits planned.toList).delta).1 = .ok () ∧
    (store.applyDelta ((GraphOverlay.new store).runEdits planned.toList).delta).2.Applied
      ((GraphOverlay.new store).runEdits planned.toList) ∧
    ∀ delta error, (store.applyDelta delta).1 = .error error →
      (store.applyDelta delta).2 = store := by
  obtain ⟨publishable, base⟩ :=
    GraphOverlay.planned_publishable valid canonical planned staged keepsRoot
  generalize (GraphOverlay.new store).runEdits planned.toList = overlay
    at publishable base rootEligible ⊢
  subst base
  obtain ⟨_, rootFound, eligible⟩ := (any_eq_true _ _).mp rootEligible
  obtain ⟨applied, result⟩ :=
    applyDelta_applied publishable rootFound eligible (.inr revision)
  exact ⟨⟨_, publishable.fromDelta rootFound eligible, publishable.rebuilt_view⟩, applied, result,
    fun _ _ failed => applyDelta_error failed⟩

def regtestPlanned : PlannedEdits where
  staged := [.insertHeader regtestFirst .valid [] .unknown,
    .insertHeader regtestSecond .valid [] .unknown,
    .insertHeader regtestSibling .valid [] .unknown,
    .setBodyValidationState regtestSiblingHash (.consensusInvalid ⟨1⟩ "rule")]
  finality := some { height := 2, hash := regtestSecondHash }
  evicted := []

theorem regtestStore_canonical : regtestStore.Canonical := by
  constructor
  · intro hash node found
    rw [(rootedAt_only found).2]
    exact ⟨rfl, by decide +kernel⟩
  · intro hash node found
    rw [(rootedAt_only found).2]
    exact rfl

theorem regtest_delta_round_trip :
    letI := regtestHasher
    let overlay := (GraphOverlay.new regtestStore).runEdits regtestPlanned.toList
    overlay.delta.retiredFinalizedPathNodes ≠ [] ∧
      (regtestStore.applyDelta overlay.delta).2.Applied overlay := by
  let := regtestHasher
  have staged : ∀ edit ∈ regtestPlanned.staged, edit.IsStaging := by
    simp [regtestPlanned, HeaderGraphEdit.IsStaging, BodyValidationState.isConsensusInvalid]
  have keepsRoot : ∀ hash ∈ regtestPlanned.evicted, hash ≠ ((GraphOverlay.new
      regtestStore).runEdits regtestPlanned.toList).finalizedFrontier.hash := by
    simp [regtestPlanned]
  have rootEligible : (((GraphOverlay.new regtestStore).runEdits regtestPlanned.toList).headerNode
      ((GraphOverlay.new regtestStore).runEdits
        regtestPlanned.toList).finalizedFrontier.hash).any HeaderNode.isEligible = true := by
    decide +kernel
  have trip := delta_round_trip regtestStore_invariant regtestStore_canonical
    regtestPlanned staged keepsRoot rootEligible (by decide)
  exact ⟨by decide +kernel, trip.2.2.1⟩

/-- Well formed stores whose deltas fail: a root with another work than its header's, an excluded
root, an inserted row with a verdict of its own, a retained row without the verdict of its
tombstone, and the last revision. -/
theorem delta_rejected :
    letI := regtestHasher
    let miscounted := rootedAt { height := 0, hash := regtestGenesisHash }
      regtestGenesis 16 0
    let excluded := (regtestStore.applyEdit
      (.setBodyValidationState regtestGenesisHash (.consensusInvalid ⟨1⟩ "rule"))).2
    let contradicted := verdictOnFirst regtestFirstStore 1
    let exhausted := { regtestStore with graphRevision := revisionBound - 1 }
    let rejects := fun (store : MemHeaderStore) (edits : List HeaderGraphEdit)
        (error : GraphError) => store.RepresentationInvariant ∧
      (store.applyDelta ((GraphOverlay.new store).runEdits edits).delta).1 = .error error
    rejects miscounted [.setBodyValidationState regtestGenesisHash (.verified ⟨1⟩)]
        (.invalidHeaderNode regtestGenesisHash .canonicalBlockWork) ∧
      rejects excluded [] (.ineligibleFinalizedFrontier regtestGenesisHash) ∧
      rejects regtestStore [.insertHeader regtestFirst .valid [] (.consensusInvalid ⟨1⟩ "rule")]
        (.permanentBodyInvalidity regtestFirstHash) ∧
      rejects contradicted [.recordAuxiliaryEvidenceDelivery regtestFirstHash ⟨2⟩]
        (.permanentBodyInvalidity regtestFirstHash) ∧
      rejects exhausted [.insertHeader regtestFirst .valid [] .unknown] .revisionExhausted := by
  let := regtestHasher
  refine ⟨⟨?_, ?_⟩, ⟨?_, ?_⟩, ⟨?_, ?_⟩, ⟨?_, ?_⟩, ⟨?_, ?_⟩⟩
  · exact rootedAt_invariant _ _ _ _
  · decide +kernel
  · exact applyEdit_invariant regtestStore_invariant _ trivial
  · decide +kernel
  · exact regtestStore_invariant
  · decide +kernel
  · exact verdictOnFirst_invariant regtestFirstStore_invariant 1
  · decide +kernel
  · exact regtestStore_invariant.withRevision _
  · decide +kernel

end Zakura.HeaderChain
