import Zakura.HeaderChain.OverlayInvariant

/-!
Structural changes of an overlay: attaching a header, hiding rows, and pruning
at a finality advance or a leaf removal.
-/

namespace Zakura.HeaderChain

open FiniteMap HeaderGraphView Finset Descends Option

variable {overlay result : GraphOverlay} {node : HeaderNode} {hash : Hash}

namespace GraphOverlay

section

variable {parent : HeaderNode}

structure AttachFrame (overlay result : GraphOverlay) (node : HeaderNode) : Prop
    extends SameOrigin overlay result where
  updated : result.updatedHeaderNodesByHash =
    overlay.updatedHeaderNodesByHash.insert node.hash node
  deleted : result.deletedHeaderHashes = overlay.deletedHeaderHashes.erase node.hash
  retired : result.retiredInsertedNodes = overlay.retiredInsertedNodes.erase node.hash
  rebased : result.workCoordinatesRebased = overlay.workCoordinatesRebased
  count : result.headerNodeCount = overlay.headerNodeCount + 1
  tips : result.eligibleHeaderTips =
    if node.isEligible then Insert.insert node.hash (overlay.eligibleHeaderTips.erase node.parentHash)
    else overlay.eligibleHeaderTips

theorem attach_frame (overlay : GraphOverlay) (node : HeaderNode) :
    overlay.AttachFrame (overlay.attach node) node := by
  simp only [attach, recordHeaderChildAddition]
  split <;> exact ⟨⟨rfl, rfl, rfl, rfl⟩, rfl, rfl, rfl, rfl, rfl, rfl⟩

theorem attach_headerNode (overlay : GraphOverlay) (node : HeaderNode) (query : Hash) :
    (overlay.attach node).headerNode query =
      if query = node.hash then some node else overlay.headerNode query := by
  have frame := attach_frame overlay node
  simp only [headerNode, frame.updated, frame.deleted, frame.base, lookup_insert_ite, mem_erase]
  by_cases same : query = node.hash
  · simp [same]
  · simp [same]

theorem mem_attach_added (overlay : GraphOverlay) (node : HeaderNode) (query child : Hash) :
    child ∈ (overlay.attach node).addedHeaderChildren.members query ↔
      child ∈ overlay.addedHeaderChildren.members query ∨
        node.hash ∉ overlay.removedHeaderChildren.members node.parentHash ∧
          query = node.parentHash ∧ child = node.hash := by
  simp only [attach, recordHeaderChildAddition]
  split
  next hidden =>
    simp [hidden]
  next plain =>
    simp [plain, mem_members_addMember]

theorem mem_attach_removed (overlay : GraphOverlay) (node : HeaderNode) (query child : Hash) :
    child ∈ (overlay.attach node).removedHeaderChildren.members query ↔
      child ∈ overlay.removedHeaderChildren.members query ∧
        ¬(query = node.parentHash ∧ child = node.hash) := by
  simp only [attach, recordHeaderChildAddition]
  split
  · simp [mem_members_eraseMember]
  rename_i plain
  constructor
  · intro member
    refine ⟨member, ?_⟩
    rintro ⟨rfl, rfl⟩
    exact plain member
  · exact fun both => both.1

/-- A header can be attached when its hash is not that of a root that finality has passed. -/
structure AttachAllowed (overlay : GraphOverlay) (hash : Hash) : Prop where
  notBase : hash ≠ overlay.base.finalizedFrontier.hash
  rootParent : overlay.finalizedFrontier.hash ≠ overlay.base.finalizedFrontier.hash →
    ∀ root, overlay.headerNode overlay.finalizedFrontier.hash = some root →
      root.parentHash ≠ hash

theorem AttachAllowed.childless (allowed : overlay.AttachAllowed node.hash)
    (valid : overlay.Invariant) (absent : overlay.headerNode node.hash = none) {child : Hash}
    (visible : overlay.VisibleUnder node.hash child)
    (notBase : child ≠ overlay.base.finalizedFrontier.hash) : False := by
  obtain ⟨childNode, childFound, link⟩ := visible
  by_cases atRoot : child = overlay.finalizedFrontier.hash
  · subst child
    exact allowed.rootParent notBase childNode childFound link
  · obtain ⟨_, parentFound, _⟩ := valid.coherent.parent childFound atRoot
    change overlay.headerNode childNode.parentHash = _ at parentFound
    simp [link, absent] at parentFound

theorem not_visibleUnder (absent : overlay.headerNode hash = none) (under : Hash) :
    ¬overlay.VisibleUnder under hash := by
  rintro ⟨_, found, _⟩
  simp [absent] at found

theorem attach_visibleUnder (overlay : GraphOverlay) (node : HeaderNode) (query child : Hash) :
    (overlay.attach node).VisibleUnder query child ↔
      if child = node.hash then query = node.parentHash else overlay.VisibleUnder query child := by
  unfold VisibleUnder
  rw [attach_headerNode]
  split
  · simp [eq_comm]
  · rfl

section

variable (valid : overlay.Invariant) (allowed : overlay.AttachAllowed node.hash)
include valid allowed

theorem attach_headerChildrenOf (attachment : overlay.view.Attachment node parent)
    (query child : Hash) : child ∈ (overlay.attach node).headerChildrenOf query ↔
      (query = node.parentHash ∧ child = node.hash) ∨ child ∈ overlay.headerChildrenOf query := by
  have layered := valid.layered
  have frame := attach_frame overlay node
  have absent : overlay.headerNode node.hash = none := attachment.fresh
  have parentFound : overlay.headerNode node.parentHash = some parent := attachment.parentFound
  have hidden := not_visibleUnder absent
  have notAdded (under : Hash) : node.hash ∉ overlay.addedHeaderChildren.members under :=
    fun member => hidden under (layered.added under node.hash member).1
  rw [mem_headerChildrenOf, mem_headerChildrenOf, mem_attach_added, mem_attach_removed,
    attach_headerNode, frame.deleted, frame.base, mem_erase]
  by_cases atNew : query = node.hash
  · subst query
    have different : node.hash ≠ node.parentHash := attachment.parent_ne.symm
    simp only [absent, different, false_and, reduceCtorEq, exists_false, or_false, iff_false]
    rintro ⟨_, _, ⟨stored, kept⟩ | added⟩
    · have under : overlay.VisibleUnder node.hash child := by
        by_contra notUnder
        exact kept ⟨(layered.removed _ _).mpr ⟨stored, notUnder⟩, not_false⟩
      obtain ⟨_, _, notRoot, _⟩ := (valid.base.coherent.children _ _).mp stored
      exact allowed.childless valid absent under notRoot
    · simp only [and_false, or_false] at added
      obtain ⟨under, _, notRoot⟩ := layered.added _ _ added
      exact allowed.childless valid absent under notRoot
  simp only [atNew, if_false]
  by_cases sameChild : child = node.hash
  · subst child
    have removedIff := layered.removed query node.hash
    have notUnder := hidden query
    have fresh := notAdded query
    by_cases atParent : query = node.parentHash
    · subst query
      by_cases stored : node.hash ∈ overlay.base.children.members node.parentHash
      · simp [parentFound, stored, removedIff, notUnder]
      · simp [parentFound, stored, removedIff]
    · simp [atParent, removedIff, notUnder, fresh]
  · simp [sameChild]

theorem attach_attached (attachment : overlay.view.Attachment node parent) :
    overlay.view.Attached (overlay.attach node).view node where
  finalized := (attach_frame overlay node).finalized
  find := attach_headerNode overlay node
  children := attach_headerChildrenOf valid allowed attachment
  hashes := by
    intro height hash
    have shaped := valid.base.coherent.toShaped
    have base := (attach_frame overlay node).base
    change hash ∈ (overlay.attach node).headerHashesAt height ↔
      _ ∨ hash ∈ overlay.headerHashesAt height
    rw [mem_headerHashesAt (base ▸ shaped), mem_headerHashesAt shaped, attach_headerNode]
    have absent : overlay.headerNode node.hash = none := attachment.fresh
    by_cases same : hash = node.hash
    · subst hash
      simp [absent, eq_comm]
    · simp [same]
  tips := by
    intro hash
    change hash ∈ (overlay.attach node).eligibleHeaderTips ↔ _
    rw [(attach_frame overlay node).tips]
    split <;> simp [view]

theorem attach_layered (absent : overlay.headerNode node.hash = none) :
    (overlay.attach node).Layered := by
  have layered := valid.layered
  have frame := attach_frame overlay node
  have hidden := not_visibleUnder absent
  constructor
  · intro hash member
    rw [frame.deleted, mem_erase] at member
    rw [frame.updated, lookup_insert_ite, if_neg member.1]
    exact layered.unstaged hash member.2
  · intro hash member
    rw [frame.deleted, mem_erase] at member
    rw [frame.base]
    exact layered.deletedBase hash member.2
  · intro query child member
    rw [mem_attach_added] at member
    rw [attach_visibleUnder, frame.base]
    rcases member with old | ⟨plain, rfl, rfl⟩
    · have facts := layered.added query child old
      have different : child ≠ node.hash := by
        rintro rfl
        exact hidden query facts.1
      simpa [different] using facts
    · refine ⟨by simp, ?_, allowed.notBase⟩
      intro stored
      exact plain ((layered.removed _ _).mpr ⟨stored, hidden _⟩)
  · intro query child
    rw [mem_attach_removed, attach_visibleUnder, frame.base, layered.removed]
    by_cases same : child = node.hash
    · subst child
      have notUnder := hidden query
      simp [notUnder]
    · simp [same]
  · have retained : (overlay.attach node).retainedHashes =
        Insert.insert node.hash overlay.retainedHashes := by
      ext hash
      rw [mem_insert, mem_retainedHashes, mem_retainedHashes, attach_headerNode]
      by_cases same : hash = node.hash
      · simp [same]
      · simp [same]
    have fresh : node.hash ∉ overlay.retainedHashes := by
      rw [mem_retainedHashes, absent]
      simp
    rw [frame.count, retained, card_insert_of_notMem fresh, layered.count]

theorem attach_invariant (attachment : overlay.view.Attachment node parent)
    (height : node.height ≤ Height.maximum) : (overlay.attach node).Invariant where
  coherent := valid.coherent.attach attachment (attach_attached valid allowed attachment)
  bounded := valid.bounded.attach (attach_attached valid allowed attachment) height
  base := (attach_frame overlay node).base ▸ valid.base
  layered := attach_layered valid allowed attachment.fresh

end

end

structure DeleteFrame (overlay result : GraphOverlay) (hash : Hash) (node : HeaderNode) : Prop
    extends SameOrigin overlay result where
  updated : result.updatedHeaderNodesByHash = overlay.updatedHeaderNodesByHash.erase hash
  deleted : ∀ query, query ∈ result.deletedHeaderHashes ↔
    query ∈ overlay.deletedHeaderHashes ∨ query = hash ∧ hash ∈ overlay.base.nodes.keys
  retired : result.retiredInsertedNodes =
    if hash ∈ overlay.base.nodes.keys then overlay.retiredInsertedNodes
    else overlay.retiredInsertedNodes.insert hash node
  added : ∀ query child, child ∈ result.addedHeaderChildren.members query ↔
    child ∈ overlay.addedHeaderChildren.members query ∧
      ¬(query = node.parentHash ∧ child = hash)
  removed : ∀ query child, child ∈ result.removedHeaderChildren.members query ↔
    child ∈ overlay.removedHeaderChildren.members query ∨
      hash ∉ overlay.addedHeaderChildren.members node.parentHash ∧
        hash ∈ overlay.base.children.members node.parentHash ∧
        query = node.parentHash ∧ child = hash
  rebased : result.workCoordinatesRebased = overlay.workCoordinatesRebased
  count : result.headerNodeCount = overlay.headerNodeCount - 1
  tips : ∀ query, query ∈ result.eligibleHeaderTips ↔
    if query = node.parentHash then result.view.isEligibleHeaderTip query = true
    else query ≠ hash ∧ query ∈ overlay.eligibleHeaderTips

structure RemovalFrame (overlay result : GraphOverlay) (parent child : Hash) : Prop where
  others : result = { overlay with
    addedHeaderChildren := result.addedHeaderChildren
    removedHeaderChildren := result.removedHeaderChildren }
  added : ∀ query other, other ∈ result.addedHeaderChildren.members query ↔
    other ∈ overlay.addedHeaderChildren.members query ∧ ¬(query = parent ∧ other = child)
  removed : ∀ query other, other ∈ result.removedHeaderChildren.members query ↔
    other ∈ overlay.removedHeaderChildren.members query ∨
      child ∉ overlay.addedHeaderChildren.members parent ∧
        child ∈ overlay.base.children.members parent ∧ query = parent ∧ other = child

theorem recordHeaderChildRemoval_frame (overlay : GraphOverlay) (parent child : Hash) :
    overlay.RemovalFrame (overlay.recordHeaderChildRemoval parent child) parent child := by
  unfold recordHeaderChildRemoval
  split
  next fresh =>
    exact ⟨rfl, fun query other => mem_members_eraseMember _ _ _ _ _, by simp [fresh]⟩
  rename_i notAdded
  have unchanged (query other : Hash) : other ∈ overlay.addedHeaderChildren.members query ↔
      other ∈ overlay.addedHeaderChildren.members query ∧
        ¬(query = parent ∧ other = child) := by
    constructor
    · intro member
      refine ⟨member, ?_⟩
      rintro ⟨rfl, rfl⟩
      exact notAdded member
    · exact fun both => both.1
  split
  next linked =>
    refine ⟨rfl, unchanged, fun query other => ?_⟩
    simp [mem_members_addMember, notAdded, linked]
  next unlinked =>
    exact ⟨rfl, unchanged, by simp [unlinked]⟩

theorem deleteHeaderNode_spec (found : overlay.headerNode hash = some node) :
    ∃ result, overlay.deleteHeaderNode hash = (.ok (), result) ∧
      overlay.DeleteFrame result hash node := by
  have unlinked := recordHeaderChildRemoval_frame (overlay.hideRow hash node) node.parentHash hash
  simp only [deleteHeaderNode, found]
  refine ⟨_, rfl, ?_⟩
  generalize (overlay.hideRow hash node).recordHeaderChildRemoval node.parentHash hash = staged
    at unlinked ⊢
  have tips (query : Hash) : query ∈ ({ staged with
      eligibleHeaderTips := staged.eligibleHeaderTips.erase hash
      headerNodeCount := staged.headerNodeCount - 1 }.refreshTips
        [node.parentHash]).eligibleHeaderTips ↔ _ :=
    mem_refreshEligibleHeaderTips _ _ _ query
  obtain ⟨others, added, removed⟩ := unlinked
  have hidden : (overlay.hideRow hash node).addedHeaderChildren = overlay.addedHeaderChildren ∧
      (overlay.hideRow hash node).removedHeaderChildren = overlay.removedHeaderChildren ∧
      (overlay.hideRow hash node).base = overlay.base := by
    unfold hideRow
    split <;> exact ⟨rfl, rfl, rfl⟩
  rw [hidden.1] at added removed
  rw [hidden.2.1, hidden.2.2] at removed
  by_cases stored : hash ∈ overlay.base.nodes.keys
  all_goals
    simp only [hideRow, stored, if_true, if_false] at others
    rw [others] at tips ⊢
    refine ⟨⟨rfl, rfl, rfl, rfl⟩, rfl, ?_, by simp [refreshTips, stored], added, removed, rfl, rfl, ?_⟩
    · simp [refreshTips, stored, or_comm]
    intro query
    refine (tips query).trans ?_
    simp only [List.mem_singleton, mem_erase]
    rfl

section

variable (frame : overlay.DeleteFrame result hash node)
include frame

theorem DeleteFrame.headerNode (query : Hash) :
    result.headerNode query = if query = hash then none else overlay.headerNode query := by
  by_cases same : query = hash
  · subst query
    rw [if_pos rfl]
    by_contra visible
    obtain ⟨row, found⟩ := ne_none_iff_exists'.mp visible
    obtain ⟨notDeleted, updated | ⟨_, stored⟩⟩ := headerNode_eq_some.mp found
    · simp [frame.updated] at updated
    · rw [frame.base] at stored
      exact notDeleted ((frame.deleted hash).mpr
        (.inr ⟨rfl, mem_keys_iff.mpr ⟨row, stored⟩⟩))
  · have deleted : query ∈ result.deletedHeaderHashes ↔ query ∈ overlay.deletedHeaderHashes := by
      rw [frame.deleted]
      simp [same]
    simp only [GraphOverlay.headerNode, deleted, frame.updated, frame.base, lookup_erase_ite, same,
      if_false]

theorem DeleteFrame.visibleUnder (parent child : Hash) :
    result.VisibleUnder parent child ↔ child ≠ hash ∧ overlay.VisibleUnder parent child := by
  unfold VisibleUnder
  rw [frame.headerNode]
  split
  · simp_all
  · simp_all

theorem DeleteFrame.layered (layered : overlay.Layered)
    (found : overlay.headerNode hash = some node) : result.Layered := by
  have ownParent {parent : Hash} (under : overlay.VisibleUnder parent hash) :
      parent = node.parentHash := by
    obtain ⟨_, otherFound, link⟩ := under
    exact mem_unique otherFound found ▸ link.symm
  constructor
  · intro query member
    rw [frame.updated, lookup_erase_ite]
    split
    · rfl
    rename_i different
    rcases (frame.deleted query).mp member with old | ⟨same, _⟩
    · exact layered.unstaged query old
    · exact absurd same different
  · intro query member
    rw [frame.base]
    rcases (frame.deleted query).mp member with old | ⟨rfl, stored⟩
    · exact layered.deletedBase query old
    · exact mem_keys_iff.mp stored
  · intro parent child member
    obtain ⟨old, different⟩ := (frame.added parent child).mp member
    obtain ⟨under, notStored, notRoot⟩ := layered.added parent child old
    rw [frame.visibleUnder, frame.base]
    refine ⟨⟨?_, under⟩, notStored, notRoot⟩
    rintro rfl
    exact different ⟨ownParent under, rfl⟩
  · intro parent child
    rw [frame.removed, frame.visibleUnder, frame.base, layered.removed]
    by_cases same : child = hash
    · subst child
      constructor
      · rintro (⟨stored, _⟩ | ⟨_, stored, rfl, _⟩)
        · exact ⟨stored, fun both => both.1 rfl⟩
        · exact ⟨stored, fun both => both.1 rfl⟩
      rintro ⟨stored, _⟩
      by_cases under : overlay.VisibleUnder parent hash
      · have atParent := ownParent under
        refine .inr ⟨?_, atParent ▸ stored, atParent, rfl⟩
        intro fresh
        exact (layered.added _ _ fresh).2.1 (atParent ▸ stored)
      · exact .inl ⟨stored, under⟩
    · simp [same]
  · have retained : result.retainedHashes = overlay.retainedHashes.erase hash := by
      ext query
      rw [mem_erase, mem_retainedHashes, mem_retainedHashes, frame.headerNode]
      by_cases same : query = hash
      · simp [same]
      · simp [same]
    have member : hash ∈ overlay.retainedHashes := mem_retainedHashes.mpr ⟨node, found⟩
    rw [frame.count, retained, card_erase_of_mem member, layered.count]

theorem DeleteFrame.headerChildrenOf (valid : overlay.base.view.Shaped) (layered : overlay.Layered)
    (found : overlay.headerNode hash = some node) (parent child : Hash) :
    child ∈ result.headerChildrenOf parent ↔
      parent ≠ hash ∧ child ≠ hash ∧ child ∈ overlay.headerChildrenOf parent := by
  rw [mem_headerChildrenOf, mem_headerChildrenOf, frame.headerNode, frame.deleted, frame.added,
    frame.removed, frame.base]
  by_cases atHash : parent = hash
  · simp [atHash]
  by_cases same : child = hash
  · subst child
    simp only [atHash, if_false, ne_eq, not_true_eq_false, false_and, and_false, iff_false]
    rintro ⟨_, visible, ⟨stored, _⟩ | ⟨fresh, different⟩⟩
    · obtain ⟨row, rowFound, _⟩ := (valid.children _ _).mp stored
      exact visible (.inr ⟨trivial, mem_keys_iff.mpr ⟨row, rowFound⟩⟩)
    · obtain ⟨⟨row, rowFound, link⟩, _⟩ := layered.added _ _ fresh
      exact different ⟨mem_unique rowFound found ▸ link.symm, trivial⟩
  · simp [atHash, same]

end

/-- Rows hidden one after another, with what their parents' refreshes do to the tips. -/
structure Hidden (overlay result : GraphOverlay) (hashes : List Hash) : Prop
    extends SameOrigin overlay result where
  rebased : result.workCoordinatesRebased = overlay.workCoordinatesRebased
  layered : overlay.Layered → result.Layered
  find : ∀ query, result.headerNode query =
    if query ∈ hashes then none else overlay.headerNode query
  children : ∀ parent child, child ∈ result.headerChildrenOf parent ↔
    parent ∉ hashes ∧ child ∉ hashes ∧ child ∈ overlay.headerChildrenOf parent
  keptTips : ∀ query, query ∉ hashes → (∀ child ∈ overlay.headerChildrenOf query, child ∉ hashes) →
    (query ∈ overlay.eligibleHeaderTips ↔ overlay.view.isEligibleHeaderTip query = true) →
      (query ∈ result.eligibleHeaderTips ↔ query ∈ overlay.eligibleHeaderTips)
  visibleTips : (∀ query ∈ overlay.eligibleHeaderTips, ∃ node, overlay.headerNode query = some node) →
    ∀ query ∈ result.eligibleHeaderTips, ∃ node, result.headerNode query = some node

section

variable {middle : GraphOverlay} {query : Hash} {hashes : List Hash}

theorem isEligibleHeaderTip_kept (hashes : List Hash)
    (find : ∀ query, result.headerNode query = if query ∈ hashes then none else overlay.headerNode
      query)
    (childrenOf : ∀ parent child, child ∈ result.headerChildrenOf parent ↔ parent ∉ hashes ∧ child
      ∉ hashes ∧ child ∈ overlay.headerChildrenOf parent) (kept : query ∉ hashes)
    (children : ∀ child ∈ overlay.headerChildrenOf query, child ∉ hashes) :
    result.view.isEligibleHeaderTip query = overlay.view.isEligibleHeaderTip query := by
  have same {other : Hash} (keptOther : other ∉ hashes) :
      result.view.eligibleAt other = overlay.view.eligibleAt other := by
    change (result.headerNode other).any _ = _
    rw [find, if_neg keptOther]
    rfl
  refine isEligibleHeaderTip_congr (same kept) (fun child => ?_)
    fun child member => same (children child member)
  exact (childrenOf query child).trans
    ⟨fun all => all.2.2, fun member => ⟨kept, children child member, member⟩⟩

theorem Hidden.nil (overlay : GraphOverlay) : overlay.Hidden overlay [] where
  toSameOrigin := ⟨rfl, rfl, rfl, rfl⟩
  rebased := rfl
  layered := id
  find := by simp
  children := by simp
  keptTips := fun _ _ _ _ => Iff.rfl
  visibleTips := id

theorem DeleteFrame.hidden (frame : overlay.DeleteFrame result hash node)
    (shaped : overlay.base.view.Shaped) (layered : overlay.Layered)
    (found : overlay.headerNode hash = some node) : overlay.Hidden result [hash] where
  __ := frame
  layered := fun _ => frame.layered layered found
  find := by simpa using frame.headerNode
  children := by simpa using frame.headerChildrenOf shaped layered found
  keptTips := by
    intro query kept children tipStatus
    have same := isEligibleHeaderTip_kept [hash] (by simpa using frame.headerNode)
      (by simpa using frame.headerChildrenOf shaped layered found) kept children
    rw [frame.tips]
    split
    · rw [same]
      exact tipStatus.symm
    · simp only [List.mem_singleton] at kept
      simp [kept]
  visibleTips := by
    intro visible query member
    rw [frame.tips] at member
    split at member
    · obtain ⟨row, rowFound, _⟩ := isEligibleHeaderTip_iff.mp member
      exact ⟨row, rowFound⟩
    · rw [frame.headerNode, if_neg member.1]
      exact visible query member.2

theorem Hidden.cons (first : overlay.Hidden middle [hash]) (rest : middle.Hidden result hashes) :
    overlay.Hidden result (hash :: hashes) where
  toSameOrigin := first.toSameOrigin.trans rest.toSameOrigin
  rebased := rest.rebased.trans first.rebased
  layered := fun layered => rest.layered (first.layered layered)
  find := by
    intro query
    rw [rest.find, first.find]
    by_cases later : query ∈ hashes
    · simp [later]
    · simp [later]
  children := by
    intro parent child
    rw [rest.children, first.children]
    simp only [List.mem_cons, List.not_mem_nil, or_false, not_or]
    tauto
  keptTips := by
    intro query kept children tipStatus
    simp only [List.mem_cons, not_or] at kept children
    have firstTips := first.keptTips query (by simpa using kept.1)
      (fun child member => by simpa using (children child member).1) tipStatus
    have same := isEligibleHeaderTip_kept [hash] first.find first.children (by simpa using kept.1)
      (fun child member => by simpa using (children child member).1)
    refine (rest.keptTips query kept.2 ?_ ?_).trans firstTips
    · intro child member
      exact (children child ((first.children _ _).mp member).2.2).2
    · rw [firstTips, same]
      exact tipStatus
  visibleTips := fun visible => rest.visibleTips (first.visibleTips visible)

theorem deleteHeaderNodes_hidden (shaped : overlay.base.view.Shaped) (layered : overlay.Layered)
    (distinct : hashes.Nodup)
    (visible : ∀ hash ∈ hashes, ∃ node, overlay.headerNode hash = some node) :
    ∃ result, overlay.deleteHeaderNodes hashes = (.ok (), result) ∧
      overlay.Hidden result hashes := by
  induction hashes generalizing overlay with
  | nil => exact ⟨overlay, rfl, Hidden.nil overlay⟩
  | cons hash rest ih =>
    obtain ⟨_, found⟩ := visible hash (by simp)
    obtain ⟨middle, run, frame⟩ := deleteHeaderNode_spec found
    have first := frame.hidden shaped layered found
    obtain ⟨fresh, restDistinct⟩ := List.nodup_cons.mp distinct
    have middleShaped : middle.base.view.Shaped := first.base ▸ shaped
    obtain ⟨result, restRun, restHidden⟩ := ih middleShaped (first.layered layered) restDistinct (by
        intro other member
        rw [first.find, if_neg (by simpa using fun same : other = hash => fresh (same ▸ member))]
        exact visible other (by simp [member]))
    refine ⟨result, ?_, first.cons restHidden⟩
    simp [deleteHeaderNodes, run, restRun]

end

section

structure FinalityPath (overlay : GraphOverlay) (target : Hash) (path : List (Hash × Hash)) :
    Prop where
  links : ∀ ancestor child, (ancestor, child) ∈ path → ∃ node,
    overlay.headerNode child = some node ∧ child ≠ overlay.finalizedFrontier.hash ∧
      node.parentHash = ancestor ∧ overlay.view.Descends child target
  covers : ∀ child node, overlay.headerNode child = some node →
    child ≠ overlay.finalizedFrontier.hash → overlay.view.Descends child target →
      (node.parentHash, child) ∈ path

variable {root : HeaderNode} {finalized cursor : Frontier}

theorem finalizedPath_spec (valid : overlay.Invariant) (finalized : Frontier) (steps : Nat)
    (found : overlay.headerNode cursor.hash = some node) (height : node.height = cursor.height)
    (distance : cursor.height = overlay.finalizedFrontier.height + steps) :
    ∃ path, overlay.finalizedPath finalized steps cursor =
        .ok (path, overlay.finalizedFrontier) ∧ overlay.FinalityPath cursor.hash path := by
  have shaped := valid.coherent.toShaped
  induction steps generalizing cursor node with
  | zero =>
    have atRoot : cursor.hash = overlay.finalizedFrontier.hash :=
      shaped.eq_root_of_height found (height.trans distance)
    have same : cursor = overlay.finalizedFrontier := by
      cases cursor
      cases frontier : overlay.finalizedFrontier
      simp_all
    refine ⟨[], by simp [finalizedPath, same], by simp, ?_⟩
    intro child childNode childFound notRoot descends
    exfalso
    apply notRoot
    apply shaped.eq_root_of_height childFound
    have upper := (shaped.descends_height descends childFound found).1
    have lower := shaped.root_le childFound
    change overlay.finalizedFrontier.height ≤ _ at lower
    change _ = overlay.finalizedFrontier.height
    omega
  | succ steps ih =>
    have notRoot : cursor.hash ≠ overlay.finalizedFrontier.hash := by
      intro atRoot
      rw [atRoot] at found
      have rootHeight : node.height = overlay.finalizedFrontier.height := shaped.root_height found
      omega
    obtain ⟨parent, parentFound, _⟩ := shaped.parent found notRoot
    have bound : node.height ≤ Height.maximum := valid.bounded _ _ found notRoot
    have previous : Height.previous cursor.height = some (cursor.height - 1) := by
      unfold Height.previous
      rw [if_pos]
      omega
    have parentCursor : overlay.headerNode (Frontier.mk (cursor.height - 1) node.parentHash).hash =
        some parent := parentFound
    obtain ⟨path, run, spec⟩ := ih parentCursor (by simp only; omega) (by simp only; omega)
    refine ⟨(node.parentHash, cursor.hash) :: path, ?_, ?_, ?_⟩
    · simp only [finalizedPath, show ¬cursor.height ≤ overlay.finalizedFrontier.height by omega,
        if_false, found, previous, run]
    · intro ancestor child member
      rcases List.mem_cons.mp member with same | later
      · obtain ⟨rfl, rfl⟩ := same
        exact ⟨node, found, notRoot, rfl, Descends.refl⟩
      · obtain ⟨childNode, childFound, childNotRoot, link, descends⟩ :=
          spec.links ancestor child later
        exact ⟨childNode, childFound, childNotRoot, link, Descends.child found notRoot descends⟩
    intro child childNode childFound childNotRoot descends
    cases descends with
    | refl =>
      simp [mem_unique found childFound]
    | child otherFound _ upper =>
      obtain rfl := mem_unique found otherFound
      exact List.mem_cons_of_mem _ (spec.covers child childNode childFound childNotRoot upper)

/-- What the deletion loop collects: the ancestors of the path, and whole sibling subtrees. -/
structure CollectedDeletions (overlay : GraphOverlay) (seen result : Finset Hash)
    (path : List (Hash × Hash)) : Prop where
  grows : seen ⊆ result
  ancestors : ∀ ancestor child, (ancestor, child) ∈ path → ancestor ∈ result
  siblings : ∀ ancestor child, (ancestor, child) ∈ path →
    ∀ sibling ∈ overlay.headerChildren ancestor, sibling ≠ child → sibling ∈ result
  sound : ∀ hash ∈ result, hash ∈ seen ∨ ∃ ancestor child, (ancestor, child) ∈ path ∧
    (hash = ancestor ∨ ∃ sibling ∈ overlay.headerChildren ancestor, sibling ≠ child ∧
      Worklist.Reaches overlay.headerChildren sibling hash)
  closed : ∀ hash ∈ result, hash ∉ seen → (∀ child, (hash, child) ∉ path) →
    ∀ next ∈ overlay.headerChildren hash, next ∈ result

theorem collectDeletions_spec (overlay : GraphOverlay) (seen : Finset Hash)
    (path : List (Hash × Hash)) :
    overlay.CollectedDeletions seen (overlay.collectDeletions seen path) path := by
  induction path generalizing seen with
  | nil =>
    refine ⟨Finset.Subset.refl _, by simp, by simp, fun hash member => .inl member, ?_⟩
    intro hash member fresh
    exact absurd member fresh
  | cons pair rest ih =>
    obtain ⟨ancestor, retained⟩ := pair
    have covered : ∀ item, overlay.headerChildren item ≠ [] → item ∈ overlay.retainedHashes := by
      intro item busy
      rw [mem_retainedHashes]
      by_contra absent
      apply busy
      rw [headerChildren, ascending_eq_nil, eq_empty_iff_forall_notMem]
      intro child member
      exact absent ((mem_headerChildrenOf _ _ _).mp member).1
    have now := Worklist.collectAll_spec overlay.headerChildren overlay.retainedHashes covered
      (Insert.insert ancestor seen) ((overlay.headerChildren ancestor).filter (· ≠ retained))
    have later := ih (Worklist.collectAll overlay.headerChildren (1 + overlay.edgeCount)
      (Insert.insert ancestor seen) ((overlay.headerChildren ancestor).filter (· ≠ retained)))
    refine ⟨?_, ?_, ?_, ?_, ?_⟩
    · exact ((subset_insert _ _).trans now.grows).trans later.grows
    · intro other child member
      rcases List.mem_cons.mp member with same | tail
      · simp only [Prod.mk.injEq] at same
        exact later.grows (now.grows (by simp [same.1]))
      · exact later.ancestors other child tail
    · intro other child member sibling linked different
      rcases List.mem_cons.mp member with same | tail
      · obtain ⟨rfl, rfl⟩ := same
        exact later.grows (now.started sibling (by simp [linked, different]))
      · exact later.siblings other child tail sibling linked different
    · intro hash member
      rcases later.sound hash member with early | ⟨other, child, tail, reached⟩
      · rcases now.sound hash early with old | ⟨sibling, linked, reached⟩
        · rcases mem_insert.mp old with same | older
          · exact .inr ⟨ancestor, retained, by simp, .inl same⟩
          · exact .inl older
        · simp only [List.mem_filter, decide_eq_true_eq, ne_eq] at linked
          exact .inr ⟨ancestor, retained, by simp, .inr ⟨sibling, linked.1, linked.2, reached⟩⟩
      · exact .inr ⟨other, child, by simp [tail], reached⟩
    intro hash member fresh offPath next linked
    by_cases early : hash ∈ Worklist.collectAll overlay.headerChildren
        (1 + overlay.edgeCount) (Insert.insert ancestor seen)
        ((overlay.headerChildren ancestor).filter (· ≠ retained))
    · refine later.grows (now.closed hash early ?_ next linked)
      rw [mem_insert, not_or]
      refine ⟨?_, fresh⟩
      rintro rfl
      exact offPath retained (by simp)
    · exact later.closed hash member early
        (fun child tail => offPath child (by simp [tail])) next linked

theorem mem_collectDeletions (valid : overlay.Invariant) {target : Hash}
    (targetFound : overlay.headerNode target = some root) {path : List (Hash × Hash)}
    (spec : overlay.FinalityPath target path) (hash : Hash) :
    hash ∈ overlay.collectDeletions ∅ path ↔
      (∃ node, overlay.headerNode hash = some node) ∧ ¬overlay.view.Descends target hash := by
  have shaped := valid.coherent.toShaped
  have collected := collectDeletions_spec overlay ∅ path
  constructor
  · intro member
    rcases collected.sound hash member with old | ⟨ancestor, child, onPath, reached⟩
    · simp at old
    obtain ⟨childNode, childFound, childNotRoot, link, descends⟩ := spec.links ancestor child onPath
    obtain ⟨ancestorNode, ancestorFound, _⟩ := shaped.parent childFound childNotRoot
    rw [link] at ancestorFound
    have childHeight := (shaped.descends_height descends childFound targetFound).1
    rcases reached with rfl | ⟨sibling, linked, different, reached⟩
    · refine ⟨⟨ancestorNode, ancestorFound⟩, ?_⟩
      intro below
      have lower := (shaped.descends_height below targetFound ancestorFound).1
      omega
    obtain ⟨siblingNode, siblingFound, _, _, _⟩ :=
      shaped.child_height ancestorFound (mem_ascending.mp linked)
    have fromSibling := (shaped.reaches_iff_descends siblingFound).mp reached
    have visible : ∃ node, overlay.headerNode hash = some node := by
      cases fromSibling with
      | refl => exact ⟨siblingNode, siblingFound⟩
      | child hashFound _ _ => exact ⟨_, hashFound⟩
    refine ⟨visible, ?_⟩
    intro below
    obtain ⟨hashNode, hashFound⟩ := visible
    -- The sibling and the retained child would both be the ancestor at their height.
    exact different (shaped.ancestor_unique hashFound fromSibling (descends.trans below)
      siblingFound childFound (by omega))
  rintro ⟨⟨node, found⟩, outside⟩
  have onPath {ancestor : Hash} (descends : overlay.view.Descends ancestor target)
      (proper : target ≠ ancestor) : ancestor ∈ overlay.collectDeletions ∅ path := by
    obtain ⟨child, childNode, childFound, notRoot, link, below⟩ := descends.first_child proper
    exact collected.ancestors ancestor child
      (link ▸ spec.covers child childNode childFound notRoot below)
  have fromRoot := shaped.descends_root found
  induction fromRoot generalizing node with
  | refl =>
    apply onPath (shaped.descends_root targetFound)
    intro same
    exact outside (same ▸ refl)
  | @child hash hashNode hashFound notRoot _ ih =>
    obtain ⟨parent, parentFound, _⟩ := shaped.parent hashFound notRoot
    have parentDeleted := ih
      (fun below => outside (child hashFound notRoot below))
      parent parentFound
    have linked : hash ∈ overlay.headerChildren hashNode.parentHash :=
      mem_ascending.mpr (shaped.mem_children hashFound notRoot)
    by_cases ancestor : ∃ child, (hashNode.parentHash, child) ∈ path
    · obtain ⟨child, member⟩ := ancestor
      by_cases retained : hash = child
      · obtain ⟨_, _, _, _, descends⟩ := spec.links _ _ member
        apply onPath (retained ▸ descends)
        intro same
        exact outside (same ▸ refl)
      · exact collected.siblings _ child member hash linked retained
    · exact collected.closed _ parentDeleted (by simp) (by simpa using ancestor) hash linked

structure FinalityAdvanced (overlay result : GraphOverlay) (finalized : Frontier) : Prop where
  valid : result.Invariant
  base : result.base = overlay.base
  baseRevision : result.baseRevision = overlay.baseRevision
  root : result.finalizedFrontier = finalized
  tombstones : result.newConsensusInvalidBodyTombstonesByHash =
    overlay.newConsensusInvalidBodyTombstonesByHash
  rebased : result.workCoordinatesRebased = overlay.workCoordinatesRebased
  find : ∀ hash node, result.headerNode hash = some node ↔
    overlay.view.Descends finalized.hash hash ∧ overlay.headerNode hash = some node

section

variable (found : overlay.headerNode finalized.hash = some node)
include found

theorem moveRoot_rewritten : GraphOverlay.Rewritten { overlay with finalizedFrontier := finalized }
      (overlay.moveRoot finalized node) := by
  have movedFound : ({ overlay with finalizedFrontier := finalized } : GraphOverlay).headerNode
      finalized.hash = some node := found
  have staged := stage_rewritten movedFound (Eq.refl (node.withInheritedFrom none).parentHash)
  exact staged.trans (refreshTips_rewritten _ _)

theorem Layered.moveRoot (layered : overlay.Layered) : (overlay.moveRoot finalized node).Layered :=
  (moveRoot_rewritten found).layered
    { layered with }

section

variable (found : overlay.headerNode finalized.hash = some node)
  (inherited : node.eligibility.inheritedFrom = none)
include found inherited

theorem moveRoot_headerNode (query : Hash) :
    (overlay.moveRoot finalized node).headerNode query = overlay.headerNode query := by
  have movedFound : ({ overlay with finalizedFrontier := finalized } : GraphOverlay).headerNode
      finalized.hash = some node := found
  have unchanged : node.withInheritedFrom none = node :=
    HeaderNode.ext_directRow rfl inherited.symm
  change (GraphOverlay.stage { overlay with finalizedFrontier := finalized } finalized.hash
    (node.withInheritedFrom none)).headerNode query = _
  rw [stage_headerNode movedFound, unchanged]
  split
  next same =>
    rw [same, found]
  · rfl

theorem Hidden.advanced {hidden : GraphOverlay} {hashes : List Hash}
    (hides : overlay.Hidden hidden hashes) (valid : overlay.Invariant)
    (height : node.height = finalized.height)
    (outside : ∀ hash, hash ∈ hashes ↔ (∃ row, overlay.headerNode hash = some row) ∧
      ¬overlay.view.Descends finalized.hash hash) : hidden.headerNode finalized.hash = some node ∧
      overlay.FinalityAdvanced (hidden.moveRoot finalized node) finalized := by
  have shaped := valid.coherent.toShaped
  have pruning : overlay.view.Pruning finalized (overlay.view.Descends finalized.hash) :=
    shaped.descends_pruning found height inherited
  have kept {hash : Hash} {row : HeaderNode} (hashFound : overlay.headerNode hash = some row) :
      hash ∉ hashes ↔ overlay.view.Descends finalized.hash hash := by
    rw [outside, not_and, not_not]
    exact imp_iff_right ⟨row, hashFound⟩
  have rootFound : hidden.headerNode finalized.hash = some node := by
    rw [hides.find, if_neg ((kept found).mpr refl), found]
  have rewritten := moveRoot_rewritten rootFound
  have find (hash : Hash) (row : HeaderNode) :
      (hidden.moveRoot finalized node).headerNode hash = some row ↔
        overlay.view.Descends finalized.hash hash ∧ overlay.headerNode hash = some row := by
    rw [moveRoot_headerNode rootFound inherited, hides.find, ite_none_left_eq_some]
    exact and_congr_left kept
  have base : (hidden.moveRoot finalized node).base = overlay.base :=
    rewritten.base.trans hides.base
  have baseShaped := valid.base.coherent.toShaped
  have pruned : overlay.view.Pruned (hidden.moveRoot finalized node).view
      (overlay.view.Descends finalized.hash) {finalized.hash} := by
    constructor
    · exact find
    · intro parent child
      change child ∈ (hidden.moveRoot finalized node).headerChildrenOf parent ↔ _
      rw [rewritten.headerChildrenOf]
      refine (hides.children parent child).trans ?_
      rw [← and_assoc, and_comm]
      refine and_congr_right fun member => ?_
      obtain ⟨⟨_, parentFound⟩, _, childFound⟩ := shaped.edge_found member
      exact and_congr (kept parentFound) (kept childFound)
    · intro queryHeight hash
      change hash ∈ (hidden.moveRoot finalized node).headerHashesAt queryHeight ↔
        _ ∧ hash ∈ overlay.headerHashesAt queryHeight
      rw [mem_headerHashesAt (base ▸ baseShaped), mem_headerHashesAt baseShaped]
      simp only [find]
      tauto
    · intro hash
      refine (mem_refreshEligibleHeaderTips _ _ _ hash).trans ?_
      simp only [List.mem_singleton, mem_singleton]
      split
      · rfl
      have tips {row : HeaderNode} (hashFound : overlay.headerNode hash = some row)
          (descends : overlay.view.Descends finalized.hash hash) :
          hash ∈ hidden.eligibleHeaderTips ↔ hash ∈ overlay.eligibleHeaderTips := by
        apply hides.keptTips hash ((kept hashFound).mpr descends) _ (valid.coherent.tips hash)
        intro child member
        obtain ⟨_, _, childFound⟩ := shaped.edge_found member
        exact (kept childFound).mpr ((shaped.descends_children found member).mp descends).1
      constructor
      · intro member
        obtain ⟨row, rowFound⟩ :=
          hides.visibleTips (fun _ => valid.coherent.tip_found) hash member
        rw [hides.find, ite_none_left_eq_some] at rowFound
        obtain ⟨keptHash, rowFound⟩ := rowFound
        have descends := (kept rowFound).mp keptHash
        exact ⟨descends, (tips rowFound descends).mp member⟩
      · rintro ⟨descends, member⟩
        obtain ⟨row, rowFound⟩ := valid.coherent.tip_found member
        exact (tips rowFound descends).mpr member
    · intro child childNode childFound notRoot removed parentKept
      exact absurd (Descends.child childFound notRoot parentKept) removed
  have root : (hidden.moveRoot finalized node).view.finalized = finalized := rewritten.finalized
  refine ⟨rootFound, ⟨?_, ?_, base ▸ valid.base, ?_⟩, base, ?_, root, ?_, ?_, find⟩
  · exact valid.coherent.prune (root.symm ▸ pruning) pruned
  · exact valid.bounded.prune (root.symm ▸ pruning) pruned
  · exact (hides.layered valid.layered).moveRoot rootFound
  · exact rewritten.baseRevision.trans hides.baseRevision
  · exact rewritten.tombstones.trans hides.tombstones
  · exact hides.rebased

end

end

section

variable (valid : overlay.Invariant) (found : overlay.headerNode finalized.hash = some node)
  (height : node.height = finalized.height) (eligible : node.isEligible = true)
include valid found height eligible

theorem advanceFinalizedFrontier_run : ∃ path hidden, overlay.finalizedPath finalized
          (finalized.height - overlay.finalizedFrontier.height) finalized =
        .ok (path, overlay.finalizedFrontier) ∧ (∀ hash, hash ∈ overlay.collectDeletions ∅ path ↔
        (∃ row, overlay.headerNode hash = some row) ∧ ¬overlay.view.Descends finalized.hash hash) ∧
      overlay.deleteHeaderNodes (ascending (overlay.collectDeletions ∅ path)) = (.ok (), hidden) ∧
      hidden.headerNode finalized.hash = some node ∧
      overlay.FinalityAdvanced (hidden.moveRoot finalized node) finalized := by
  have lower := valid.coherent.toShaped.root_le found
  change overlay.finalizedFrontier.height ≤ _ at lower
  obtain ⟨path, walked, spec⟩ := finalizedPath_spec valid finalized
    (finalized.height - overlay.finalizedFrontier.height) found height (by omega)
  have outside := mem_collectDeletions valid found spec
  obtain ⟨hidden, run, hides⟩ := deleteHeaderNodes_hidden valid.base.coherent.toShaped
    valid.layered (nodup_ascending (overlay.collectDeletions ∅ path)) (by
      intro hash member
      exact ((outside hash).mp (mem_ascending.mp member)).1)
  obtain ⟨rootFound, advanced⟩ := hides.advanced found
    ((HeaderNode.isEligible_iff node).mp eligible).2 valid height (by
      intro hash
      rw [mem_ascending]
      exact outside hash)
  exact ⟨path, hidden, walked, outside, run, rootFound, advanced⟩

theorem advanceFinalizedFrontier_spec :
    ∃ deleted result, overlay.advanceFinalizedFrontier finalized =
        (.ok (ascending deleted), result) ∧
      (∀ hash, hash ∈ deleted ↔ (∃ row, overlay.headerNode hash = some row) ∧
        ¬overlay.view.Descends finalized.hash hash) ∧
      overlay.FinalityAdvanced result finalized := by
  obtain ⟨path, hidden, walked, outside, run, rootFound, advanced⟩ :=
    advanceFinalizedFrontier_run valid found height eligible
  refine ⟨overlay.collectDeletions ∅ path, hidden.moveRoot finalized node, ?_, outside, advanced⟩
  simp [advanceFinalizedFrontier, found, height, eligible, walked, run, rootFound]

end

end

section

variable (frame : overlay.DeleteFrame result hash node) (valid : overlay.Invariant)
  (found : overlay.headerNode hash = some node)
include frame valid found

theorem DeleteFrame.leaf_pruned : overlay.view.Pruned result.view (· ≠ hash) {node.parentHash} := by
  have baseShaped := valid.base.coherent.toShaped
  constructor
  · intro query row
    change result.headerNode query = some row ↔ _ ∧ overlay.headerNode query = some row
    rw [frame.headerNode]
    split <;> simp_all
  · intro parent child
    refine (frame.headerChildrenOf baseShaped valid.layered found parent child).trans ?_
    tauto
  · intro height query
    change query ∈ result.headerHashesAt height ↔ _ ∧ query ∈ overlay.headerHashesAt height
    rw [mem_headerHashesAt (frame.base ▸ baseShaped), mem_headerHashesAt baseShaped,
      frame.headerNode]
    split <;> simp_all
  · intro query
    refine (frame.tips query).trans ?_
    simp only [mem_singleton]
    rfl
  · intro child childNode childFound _ removed _
    simp only [ne_eq, not_not] at removed
    subst child
    simp [mem_unique found childFound]

theorem DeleteFrame.leaf_invariant (leaf : overlay.headerChildrenOf hash = ∅)
    (notRoot : hash ≠ overlay.finalizedFrontier.hash) : result.Invariant := by
  have pruning : overlay.view.Pruning overlay.view.finalized (· ≠ hash) :=
    valid.coherent.toShaped.leaf_pruning valid.coherent leaf notRoot
  have root : result.view.finalized = overlay.view.finalized := frame.finalized
  have pruned := frame.leaf_pruned valid found
  constructor
  · exact valid.coherent.prune (root.symm ▸ pruning) pruned
  · exact valid.bounded.prune (root.symm ▸ pruning) pruned
  · exact frame.base ▸ valid.base
  · exact frame.layered valid.layered found

end

end GraphOverlay

end Zakura.HeaderChain
