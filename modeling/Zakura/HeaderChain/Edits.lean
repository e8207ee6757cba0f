import Zakura.HeaderChain.Eligibility

/-!
Edits of a coherent graph, stated on views: rewriting a row and propagating its
eligibility, attaching a child, moving work coordinates, and pruning. The store
and the overlay reach these edits through different data structures.
-/

namespace Zakura.HeaderChain

open FiniteMap WorkCoordinate Option

def HeaderNode.immutableRow (node : HeaderNode) : HeaderNode :=
  { node with
    validation := .valid
    eligibility := EligibilityState.default
    bodyValidationState := .unknown
    auxDeliveryIds := [] }

structure SameImmutable (first second : HeaderNode) : Prop extends SameLinks first second where
  header : first.header = second.header
  blockWork : first.blockWork = second.blockWork
  workCoordinate : first.workCoordinate = second.workCoordinate

theorem SameImmutable.of_immutableRow {first second : HeaderNode}
    (rows : first.immutableRow = second.immutableRow) : SameImmutable first second := by
  cases first
  cases second
  simp only [HeaderNode.immutableRow, HeaderNode.mk.injEq] at rows
  obtain ⟨header, hash, parentHash, height, blockWork, workCoordinate, _⟩ := rows
  exact { hash, parentHash, height, header, blockWork, workCoordinate }

theorem SameImmutable.trans {first middle last : HeaderNode} (upper : SameImmutable first middle)
    (lower : SameImmutable middle last) : SameImmutable first last where
  hash := upper.hash.trans lower.hash
  parentHash := upper.parentHash.trans lower.parentHash
  height := upper.height.trans lower.height
  header := upper.header.trans lower.header
  blockWork := upper.blockWork.trans lower.blockWork
  workCoordinate := upper.workCoordinate.trans lower.workCoordinate

theorem SameImmutable.of_directRow {first second : HeaderNode}
    (direct : first.directRow = second.directRow) : SameImmutable first second := by
  have rows := congrArg HeaderNode.immutableRow direct
  exact SameImmutable.of_immutableRow rows

def SameRows (first second : Hash → Option HeaderNode) : Prop :=
  ∀ hash, (first hash).map HeaderNode.immutableRow = (second hash).map HeaderNode.immutableRow

variable {first second third : Hash → Option HeaderNode} {node root old : HeaderNode}
  {hash query leaf : Hash} {affected : Finset Hash}

theorem SameRows.find (same : SameRows first second) (found : first hash = some node) :
    ∃ other, second hash = some other ∧ SameImmutable node other := by
  have rows := (same hash).symm
  rw [found, map_some, map_eq_some_iff] at rows
  obtain ⟨other, otherFound, row⟩ := rows
  exact ⟨other, otherFound, SameImmutable.of_immutableRow row.symm⟩

theorem SameRows.symm (same : SameRows first second) : SameRows second first :=
  fun hash => (same hash).symm

theorem SameRows.trans (left : SameRows first second) (right : SameRows second third) :
    SameRows first third :=
  fun hash => (left hash).trans (right hash)

theorem SameDirect.sameRows (same : SameDirect first second) : SameRows first second := by
  intro hash
  have rows := congrArg (Option.map HeaderNode.immutableRow) (same hash)
  rw [Option.map_map, Option.map_map] at rows
  exact rows

theorem SameRows.height (same : SameRows first second) (hash : Hash) :
    (first hash).map HeaderNode.height = (second hash).map HeaderNode.height := by
  have rows := congrArg (Option.map HeaderNode.height) (same hash)
  rw [Option.map_map, Option.map_map] at rows
  exact rows

namespace HeaderGraphView

variable {view final : HeaderGraphView}

section

variable (shaped : view.Shaped) (finalized : final.finalized = view.finalized)
  (children : final.childrenOf = view.childrenOf) (hashes : final.hashesAt = view.hashesAt)
include shaped finalized children hashes

theorem Shaped.of_links (forward : ∀ {hash node}, final.find hash = some node →
      ∃ old, view.find hash = some old ∧ SameLinks node old)
    (backward : ∀ {hash old}, view.find hash = some old →
      ∃ node, final.find hash = some node ∧ SameLinks old node) : final.Shaped := by
  constructor
  · obtain ⟨root, found, height⟩ := shaped.root
    obtain ⟨node, nodeFound, same⟩ := backward found
    exact ⟨node, finalized ▸ nodeFound, by rw [finalized, ← same.height, height]⟩
  · intro hash node found
    obtain ⟨old, oldFound, same⟩ := forward found
    rw [same.hash, shaped.keyed oldFound]
  · intro hash node found notRoot
    obtain ⟨old, oldFound, same⟩ := forward found
    obtain ⟨parent, parentFound, successor⟩ := shaped.parent oldFound (finalized ▸ notRoot)
    obtain ⟨newParent, newParentFound, sameParent⟩ := backward parentFound
    refine ⟨newParent, same.parentHash ▸ newParentFound, ?_⟩
    rw [same.height, successor, sameParent.height]
  · intro parent child
    rw [children, shaped.children, finalized]
    constructor
    · rintro ⟨node, found, notRoot, link⟩
      obtain ⟨newNode, newFound, same⟩ := backward found
      exact ⟨newNode, newFound, notRoot, same.parentHash ▸ link⟩
    · rintro ⟨node, found, notRoot, link⟩
      obtain ⟨oldNode, oldFound, same⟩ := forward found
      exact ⟨oldNode, oldFound, notRoot, same.parentHash ▸ link⟩
  intro height hash
  rw [hashes, shaped.heights]
  constructor
  · rintro ⟨node, found, heightEq⟩
    obtain ⟨newNode, newFound, same⟩ := backward found
    exact ⟨newNode, newFound, same.height ▸ heightEq⟩
  · rintro ⟨node, found, heightEq⟩
    obtain ⟨oldNode, oldFound, same⟩ := forward found
    exact ⟨oldNode, oldFound, same.height ▸ heightEq⟩

theorem Shaped.of_sameRows (rows : SameRows final.find view.find) : final.Shaped := by
  apply shaped.of_links finalized children hashes
  · intro hash node found
    obtain ⟨old, oldFound, same⟩ := rows.find found
    exact ⟨old, oldFound, same.toSameLinks⟩
  · intro hash old oldFound
    obtain ⟨node, found, same⟩ := rows.symm.find oldFound
    exact ⟨node, found, same.toSameLinks⟩

end

def Bounded (view : HeaderGraphView) : Prop :=
  ∀ hash node, view.find hash = some node → hash ≠ view.finalized.hash →
    node.height ≤ Height.maximum

theorem Bounded.of_sameRows (bounded : view.Bounded)
    (finalized : final.finalized = view.finalized) (rows : SameRows final.find view.find) :
    final.Bounded := by
  intro hash node found notRoot
  obtain ⟨_, oldFound, same⟩ := rows.find found
  rw [same.height]
  exact bounded _ _ oldFound (finalized ▸ notRoot)

section

variable (coherent : view.Coherent) (affected : Finset Hash)
  (children : final.childrenOf = view.childrenOf) (rows : SameRows final.find view.find)
  (covered : ∀ {hash old node}, view.find hash = some old → final.find hash = some node →
    old.isEligible ≠ node.isEligible → hash ∈ affected ∧ old.parentHash ∈ affected)
  (refreshed : ∀ hash, hash ∈ final.tips ↔
    if hash ∈ affected then final.isEligibleHeaderTip hash = true else hash ∈ view.tips)
include coherent children rows covered refreshed

theorem Coherent.tips_refreshed (hash : Hash) :
    hash ∈ final.tips ↔ final.isEligibleHeaderTip hash = true := by
  rw [refreshed]
  split
  · rfl
  rename_i unaffected
  have changed {query : Hash} (differs : view.eligibleAt query ≠ final.eligibleAt query) :
      ∃ old, view.find query = some old ∧ query ∈ affected ∧ old.parentHash ∈ affected := by
    cases oldFound : view.find query with
    | none =>
      have absent : final.find query = none := by simpa [oldFound] using rows query
      simp [eligibleAt, oldFound, absent] at differs
    | some old =>
      obtain ⟨_, found, _⟩ := rows.symm.find oldFound
      refine ⟨old, rfl, covered oldFound found fun same => differs ?_⟩
      simp [eligibleAt, oldFound, found, same]
  -- Neither the row nor any of its children changed eligibility.
  rw [coherent.tips, isEligibleHeaderTip_congr]
  · by_contra differs
    obtain ⟨_, _, member, _⟩ := changed differs
    exact unaffected member
  · simp [children]
  intro child member
  by_contra differs
  obtain ⟨old, found, _, parent⟩ := changed differs
  obtain ⟨_, childFound, _, link⟩ := (coherent.children _ _).mp (children ▸ member)
  obtain rfl := mem_unique found childFound
  exact unaffected (link ▸ parent)

theorem Coherent.relabel (finalized : final.finalized = view.finalized)
    (hashes : final.hashesAt = view.hashesAt)
    (root : ∀ {node}, final.find final.finalized.hash = some node →
      node.eligibility.inheritedFrom = none)
    (settled : ∀ hash, Settled final.finalized.hash final.find hash) : final.Coherent where
  toShaped := coherent.toShaped.of_sameRows finalized children hashes rows
  work := by
    intro hash node parent found notRoot parentFound
    obtain ⟨_, oldFound, same⟩ := rows.find found
    obtain ⟨_, oldParentFound, sameParent⟩ := rows.find parentFound
    rw [sameParent.workCoordinate, same.blockWork, same.workCoordinate]
    rw [same.parentHash] at oldParentFound
    exact coherent.work oldFound (finalized ▸ notRoot) oldParentFound
  rootInherits := root
  inherits := by
    intro hash node parent found notRoot parentFound
    exact settled hash node parent found notRoot parentFound
  tips := coherent.tips_refreshed affected children rows covered refreshed

end

def putRow (view : HeaderGraphView) (hash : Hash) (node : HeaderNode) : HeaderGraphView :=
  { view with find := fun query => if query = hash then some node else view.find query }

theorem putRow_same (found : view.find hash = some node) : view.putRow hash node = view := by
  have find : (view.putRow hash node).find = view.find := by
    funext query
    simp only [putRow]
    split
    next same =>
      rw [same, found]
    · rfl
  change { view with find := (view.putRow hash node).find } = view
  rw [find]

structure RowRewrite (view : HeaderGraphView) (hash : Hash) (old node : HeaderNode) : Prop where
  found : view.find hash = some old
  rows : node.immutableRow = old.immutableRow
  inherited : node.eligibility.inheritedFrom = old.eligibility.inheritedFrom

variable {find : Hash → Option HeaderNode}

section

variable (rewrite : view.RowRewrite hash old node)
include rewrite

theorem RowRewrite.same : SameImmutable node old :=
  SameImmutable.of_immutableRow rewrite.rows

theorem RowRewrite.sameRows : SameRows (view.putRow hash node).find view.find := by
  intro query
  simp only [putRow]
  split
  · subst query
    simp [rewrite.found, rewrite.rows]
  · rfl

theorem RowRewrite.row {row : HeaderNode} (direct : SameDirect find (view.putRow hash node).find)
    (found : find query = some row) :
    ∃ former, view.find query = some former ∧ SameImmutable row former ∧ row.bodyValidationState =
        if query = hash then node.bodyValidationState else former.bodyValidationState := by
  obtain ⟨former, formerFound, same⟩ := (direct.sameRows.trans rewrite.sameRows).find found
  refine ⟨former, formerFound, same, ?_⟩
  obtain ⟨_, writtenFound, rows⟩ := direct.find found
  rw [HeaderNode.body_of_directRow rows]
  simp only [putRow] at writtenFound
  split at writtenFound
  next atHash =>
    cases writtenFound
    rw [if_pos atHash]
  next elsewhere =>
    rw [if_neg elsewhere, mem_unique writtenFound formerFound]

theorem RowRewrite.row_of_body {row : HeaderNode}
    (body : node.bodyValidationState = old.bodyValidationState)
    (direct : SameDirect find (view.putRow hash node).find) (found : find query = some row) :
    ∃ former, view.find query = some former ∧ SameImmutable row former ∧
      row.bodyValidationState = former.bodyValidationState := by
  obtain ⟨former, formerFound, same, rowBody⟩ := rewrite.row direct found
  refine ⟨former, formerFound, same, ?_⟩
  rw [rowBody]
  split
  next atHash =>
    rw [body, mem_unique rewrite.found (atHash ▸ formerFound)]
  · rfl

theorem RowRewrite.shaped (shaped : view.Shaped) : (view.putRow hash node).Shaped :=
  shaped.of_sameRows rfl rfl rfl rewrite.sameRows

theorem RowRewrite.settled (coherent : view.Coherent)
    (unaffected : query ∉ view.childrenOf hash ∨ old.isEligible = node.isEligible) :
    Settled view.finalized.hash (view.putRow hash node).find query := by
  intro queryNode parent found notRoot parentFound
  simp only [putRow] at found parentFound
  obtain ⟨oldQuery, oldFound, link, inherited⟩ : ∃ oldQuery, view.find query = some oldQuery ∧
      oldQuery.parentHash = queryNode.parentHash ∧
      oldQuery.eligibility.inheritedFrom = queryNode.eligibility.inheritedFrom := by
    split at found
    · subst query
      cases found
      exact ⟨old, rewrite.found, rewrite.same.parentHash.symm, rewrite.inherited.symm⟩
    · exact ⟨queryNode, found, rfl, rfl⟩
  rw [← inherited, ← link]
  rw [← link, ite_eq_some] at parentFound
  rcases parentFound with ⟨atHash, rfl⟩ | ⟨_, parentFound⟩
  · have agrees : old.isEligible = node.isEligible := by
      rcases unaffected with notChild | agrees
      · exact absurd (atHash ▸ coherent.mem_children oldFound notRoot) notChild
      · exact agrees
    rw [coherent.inherits oldFound notRoot (atHash ▸ rewrite.found)]
    simp [HeaderNode.inheritedByChildren, agrees]
  · exact coherent.inherits oldFound notRoot parentFound

theorem RowRewrite.rootInherits (coherent : view.Coherent)
    (found : (view.putRow hash node).find view.finalized.hash = some root) :
    root.eligibility.inheritedFrom = none := by
  simp only [putRow] at found
  split at found
  next atRoot =>
    cases found
    rw [rewrite.inherited]
    exact coherent.rootInherits (atRoot ▸ rewrite.found)
  · exact coherent.rootInherits found

theorem RowRewrite.coherent (coherent : view.Coherent) (same : old.isEligible = node.isEligible) :
    (view.putRow hash node).Coherent := by
  refine coherent.relabel ∅ rfl rewrite.sameRows ?_ ?_ rfl rfl (rewrite.rootInherits coherent)
    fun query => rewrite.settled coherent (.inr same)
  · intro query oldQuery queryNode oldFound found changed
    simp only [putRow] at found
    split at found
    · subst query
      rw [rewrite.found] at oldFound
      simp_all
    · simp_all
  · simp [putRow]

end

end HeaderGraphView

section

variable {State : Type} {table : NodeTable State} {view final : HeaderGraphView}
  {initial state : State}

section

variable (rewrite : view.RowRewrite hash old node) (coherent : view.Coherent)
include rewrite coherent

theorem HeaderGraphView.RowRewrite.progress
    (presents : table.Presents initial (view.putRow hash node)) (domain : Finset Hash)
    (seed : Finset Hash) :
    RecomputeProgress table (view.putRow hash node) domain initial hash domain.card initial []
      seed (table.children initial hash) := by
  have shaped := rewrite.shaped coherent.toShaped
  have rootFound : (view.putRow hash node).find hash = some node := by simp [putRow]
  constructor
  · exact NodeTable.Writes.none
  · exact fun _ => rfl
  · intro query
    rw [presents.get]
  · rw [presents.get]
  · intro query unqueued
    rw [presents.get]
    apply rewrite.settled coherent
    left
    intro member
    exact unqueued ((presents.mem_children hash query).mpr member)
  · intro query queryNode found changed
    rw [presents.get] at changed
    exact absurd found changed
  · simpa using presents.children_nodup hash
  · intro query member
    have child := (presents.mem_children hash query).mp (by simpa using member)
    obtain ⟨childNode, childFound, notRoot, link, _⟩ := shaped.child_height rootFound child
    refine ⟨childNode, childFound, notRoot, ?_, .inl link⟩
    intro startNode startFound
    obtain rfl := mem_unique rootFound startFound
    omega
  · simp

theorem HeaderGraphView.RowRewrite.loop {domain : Finset Hash} (lawful : table.Lawful)
    (presents : table.Presents initial (view.putRow hash node))
    (covered : ∀ {query found}, table.get initial query = some found → query ∈ domain)
    (stopEarly : Bool) :
    ∃ affected state, recomputeLoop table stopEarly domain.card initial {hash, node.parentHash}
        (table.children initial hash) = (.ok affected, state) ∧
      hash ∈ affected ∧ old.parentHash ∈ affected ∧
      Recomputed table (view.putRow hash node) initial state affected := by
  obtain ⟨affected, state, run, grows, done⟩ := recomputeLoop_spec lawful
    (rewrite.shaped coherent.toShaped) presents (presents.get ▸ covered) stopEarly
    (rewrite.progress coherent presents domain {hash, node.parentHash})
  rw [← rewrite.same.parentHash]
  exact ⟨affected, state, run, grows (by simp), grows (by simp), done⟩

theorem HeaderGraphView.RowRewrite.recomputed
    (done : Recomputed table (view.putRow hash node) initial state affected)
    (hashAffected : hash ∈ affected) (parentAffected : old.parentHash ∈ affected)
    (finalized : final.finalized = view.finalized) (find : final.find = table.get state)
    (children : final.childrenOf = view.childrenOf) (hashes : final.hashesAt = view.hashesAt)
    (refreshed : ∀ query, query ∈ final.tips ↔ if query ∈ affected then final.isEligibleHeaderTip
      query = true else query ∈ view.tips) : final.Coherent := by
  have rows : SameRows final.find view.find :=
    find ▸ done.direct.sameRows.trans rewrite.sameRows
  refine coherent.relabel affected children rows ?_ refreshed finalized hashes ?_ ?_
  · intro query oldQuery queryNode oldFound found changed
    by_cases atHash : query = hash
    · subst query
      obtain rfl := mem_unique rewrite.found oldFound
      exact ⟨hashAffected, parentAffected⟩
    apply done.touched (by simpa [HeaderGraphView.putRow, atHash] using oldFound)
    rw [← find, found]
    simp only [ne_eq, some.injEq]
    rintro rfl
    exact changed rfl
  · intro root found
    rw [find, finalized] at found
    rw [show view.finalized = (view.putRow hash node).finalized from rfl, done.root] at found
    exact rewrite.rootInherits coherent found
  · intro query
    rw [find, finalized]
    exact done.settled query

end

end

namespace HeaderGraphView

variable {view final other : HeaderGraphView}

structure Attachment (view : HeaderGraphView) (node parent : HeaderNode) : Prop where
  fresh : view.find node.hash = none
  parentFound : view.find node.parentHash = some parent
  height : node.height = parent.height + 1
  work : parent.workCoordinate.checkedAdd node.blockWork = .ok node.workCoordinate
  inherits : node.eligibility.inheritedFrom = parent.inheritedByChildren node.parentHash

structure Attached (view final : HeaderGraphView) (node : HeaderNode) : Prop where
  finalized : final.finalized = view.finalized
  find : ∀ query, final.find query = if query = node.hash then some node else view.find query
  children : ∀ parent child, child ∈ final.childrenOf parent ↔
    (parent = node.parentHash ∧ child = node.hash) ∨ child ∈ view.childrenOf parent
  hashes : ∀ height hash, hash ∈ final.hashesAt height ↔
    (height = node.height ∧ hash = node.hash) ∨ hash ∈ view.hashesAt height
  tips : ∀ hash, hash ∈ final.tips ↔
    if node.isEligible then hash = node.hash ∨ hash ≠ node.parentHash ∧ hash ∈ view.tips
    else hash ∈ view.tips

section

variable {parent : HeaderNode}

section

variable (attachment : view.Attachment node parent)
include attachment

theorem Attachment.notRoot (shaped : view.Shaped) : node.hash ≠ view.finalized.hash := by
  intro same
  obtain ⟨root, found, _⟩ := shaped.root
  rw [← same, attachment.fresh] at found
  simp at found

theorem Attachment.parent_ne : node.parentHash ≠ node.hash := by
  intro same
  have found := attachment.parentFound
  simp [same, attachment.fresh] at found

theorem Attachment.no_children (shaped : view.Shaped) (child : Hash) :
    child ∉ view.childrenOf node.hash := by
  intro member
  obtain ⟨_, childFound, notRoot, link⟩ := (shaped.children _ _).mp member
  obtain ⟨_, childParentFound, _⟩ := shaped.parent childFound notRoot
  simp [link, attachment.fresh] at childParentFound

end

section

variable (attached : view.Attached final node) (attachment : view.Attachment node parent)
include attached attachment

theorem Attached.shaped (shaped : view.Shaped) : final.Shaped := by
  have notRoot := attachment.notRoot shaped
  have old {hash : Hash} {found : HeaderNode} (retained : view.find hash = some found) :
      final.find hash = some found := by
    rw [attached.find]
    split
    · subst hash
      simp [attachment.fresh] at retained
    · exact retained
  constructor
  · obtain ⟨root, rootFound, height⟩ := shaped.root
    exact ⟨root, by rw [attached.finalized]; exact old rootFound, by rw [attached.finalized, height]⟩
  · intro hash found retained
    rw [attached.find] at retained
    split at retained
    · simp_all
    · exact shaped.keyed retained
  · intro hash found retained hashNotRoot
    rw [attached.find, ite_eq_some] at retained
    rcases retained with ⟨_, rfl⟩ | ⟨_, retained⟩
    · exact ⟨parent, old attachment.parentFound, attachment.height⟩
    · obtain ⟨oldParent, oldParentFound, successor⟩ :=
        shaped.parent retained (attached.finalized ▸ hashNotRoot)
      exact ⟨oldParent, old oldParentFound, successor⟩
  · intro hash child
    rw [attached.children, shaped.children, attached.finalized, attached.find]
    by_cases same : child = node.hash
    · subst child
      simp [attachment.fresh, notRoot, eq_comm]
    · simp [same]
  · intro height hash
    rw [attached.hashes, shaped.heights, attached.find]
    by_cases same : hash = node.hash
    · subst hash
      simp [attachment.fresh, eq_comm]
    · simp [same]

theorem Attached.tips_exact (coherent : view.Coherent) (hash : Hash) :
    hash ∈ final.tips ↔ final.isEligibleHeaderTip hash = true := by
  have parentDifferent := attachment.parent_ne
  have noChildren := attachment.no_children coherent.toShaped
  have own (query : Hash) : final.eligibleAt query =
      if query = node.hash then node.isEligible else view.eligibleAt query := by
    simp only [eligibleAt, attached.find]
    split <;> rfl
  have below : (∀ child ∈ final.childrenOf hash, final.eligibleAt child = false) ↔
      (hash = node.parentHash → node.isEligible = false) ∧
        ∀ child ∈ view.childrenOf hash, view.eligibleAt child = false := by
    have old (child : Hash) (member : child ∈ view.childrenOf hash) :
        final.eligibleAt child = view.eligibleAt child := by
      rw [own, if_neg]
      rintro rfl
      obtain ⟨_, childFound, _⟩ := (coherent.children _ _).mp member
      simp [attachment.fresh] at childFound
    simp only [attached.children, or_imp, forall_and, and_imp]
    refine and_congr ?_ (forall₂_congr fun child member => by rw [old child member])
    constructor
    · intro new atParent
      simpa [own] using new node.hash atParent rfl
    · rintro ineligible child atParent rfl
      simpa [own] using ineligible atParent
  rw [attached.tips, coherent.tips, isEligibleHeaderTip_iff_eligibleAt,
    isEligibleHeaderTip_iff_eligibleAt, below, own]
  by_cases same : hash = node.hash
  · subst hash
    have absent : view.eligibleAt node.hash = false := by simp [eligibleAt, attachment.fresh]
    simp [absent, parentDifferent.symm, noChildren]
  · cases eligible : node.isEligible <;> simp [same]
    tauto

end

theorem Coherent.attach (coherent : view.Coherent) (attachment : view.Attachment node parent)
    (attached : view.Attached final node) : final.Coherent := by
  have edge {hash : Hash} {found foundParent : HeaderNode} (retained : final.find hash = some found)
      (notRoot : hash ≠ final.finalized.hash)
      (parentRetained : final.find found.parentHash = some foundParent) :
      foundParent.workCoordinate.checkedAdd found.blockWork = .ok found.workCoordinate ∧
        found.eligibility.inheritedFrom = foundParent.inheritedByChildren found.parentHash := by
    rw [attached.find] at retained parentRetained
    rw [attached.finalized] at notRoot
    split at retained
    · cases retained
      rw [if_neg attachment.parent_ne] at parentRetained
      obtain rfl := mem_unique attachment.parentFound parentRetained
      exact ⟨attachment.work, attachment.inherits⟩
    obtain ⟨oldParent, oldParentFound, _⟩ := coherent.parent retained notRoot
    split at parentRetained
    next atNew =>
      simp [atNew, attachment.fresh] at oldParentFound
    · exact ⟨coherent.work retained notRoot parentRetained,
        coherent.inherits retained notRoot parentRetained⟩
  refine ⟨attached.shaped attachment coherent.toShaped, fun retained notRoot parentRetained =>
    (edge retained notRoot parentRetained).1, fun found => ?_, fun retained notRoot parentRetained =>
    (edge retained notRoot parentRetained).2, attached.tips_exact attachment coherent⟩
  rw [attached.finalized, attached.find,
    if_neg (attachment.notRoot coherent.toShaped).symm] at found
  exact coherent.rootInherits found

end

/-- A pruning keeps a new root and a set of its descendants that is closed under parents. -/
structure Pruning (view : HeaderGraphView) (finalized : Frontier) (keep : Hash → Prop) : Prop where
  root : ∃ node, view.find finalized.hash = some node ∧ node.height = finalized.height ∧
    node.eligibility.inheritedFrom = none
  rootKept : keep finalized.hash
  closed : ∀ {hash node}, view.find hash = some node → keep hash → hash ≠ finalized.hash →
    hash ≠ view.finalized.hash ∧ keep node.parentHash
  rootParent : ∀ {node}, view.find finalized.hash = some node →
    finalized.hash ≠ view.finalized.hash → ¬keep node.parentHash

structure Pruned (view final : HeaderGraphView) (keep : Hash → Prop) (affected : Finset Hash) :
    Prop where
  find : ∀ hash node, final.find hash = some node ↔ keep hash ∧ view.find hash = some node
  children : ∀ parent child, child ∈ final.childrenOf parent ↔
    child ∈ view.childrenOf parent ∧ keep parent ∧ keep child
  hashes : ∀ height hash, hash ∈ final.hashesAt height ↔ keep hash ∧ hash ∈ view.hashesAt height
  tips : ∀ hash, hash ∈ final.tips ↔
    if hash ∈ affected then final.isEligibleHeaderTip hash = true
    else keep hash ∧ hash ∈ view.tips
  covered : ∀ {child node}, view.find child = some node → child ≠ view.finalized.hash →
    ¬keep child → keep node.parentHash → node.parentHash ∈ affected

section

variable {keep : Hash → Prop}

theorem Pruned.shaped (pruned : view.Pruned final keep affected)
    (pruning : view.Pruning final.finalized keep) (shaped : view.Shaped) : final.Shaped := by
  constructor
  · obtain ⟨root, found, height, _⟩ := pruning.root
    exact ⟨root, (pruned.find _ _).mpr ⟨pruning.rootKept, found⟩, height⟩
  · intro hash node found
    exact shaped.keyed ((pruned.find _ _).mp found).2
  · intro hash node found notRoot
    obtain ⟨kept, oldFound⟩ := (pruned.find _ _).mp found
    obtain ⟨oldNotRoot, parentKept⟩ := pruning.closed oldFound kept notRoot
    obtain ⟨parent, parentFound, successor⟩ := shaped.parent oldFound oldNotRoot
    exact ⟨parent, (pruned.find _ _).mpr ⟨parentKept, parentFound⟩, successor⟩
  · intro parent child
    rw [pruned.children, shaped.children]
    constructor
    · rintro ⟨⟨node, found, oldNotRoot, link⟩, parentKept, childKept⟩
      refine ⟨node, (pruned.find _ _).mpr ⟨childKept, found⟩, ?_, link⟩
      rintro rfl
      exact pruning.rootParent found oldNotRoot (link ▸ parentKept)
    rintro ⟨node, found, notRoot, link⟩
    obtain ⟨kept, oldFound⟩ := (pruned.find _ _).mp found
    obtain ⟨oldNotRoot, parentKept⟩ := pruning.closed oldFound kept notRoot
    exact ⟨⟨node, oldFound, oldNotRoot, link⟩, link ▸ parentKept, kept⟩
  · intro height hash
    rw [pruned.hashes, shaped.heights]
    constructor
    · rintro ⟨kept, node, found, heightEq⟩
      exact ⟨node, (pruned.find _ _).mpr ⟨kept, found⟩, heightEq⟩
    · rintro ⟨node, found, heightEq⟩
      obtain ⟨kept, oldFound⟩ := (pruned.find _ _).mp found
      exact ⟨kept, node, oldFound, heightEq⟩

theorem Pruned.tips_exact (pruned : view.Pruned final keep affected) (coherent : view.Coherent)
    (hash : Hash) : hash ∈ final.tips ↔ final.isEligibleHeaderTip hash = true := by
  rw [pruned.tips]
  split
  · rfl
  rename_i unaffected
  rw [coherent.tips, isEligibleHeaderTip_iff, isEligibleHeaderTip_iff]
  constructor
  · rintro ⟨kept, node, found, eligible, leaf⟩
    refine ⟨node, (pruned.find _ _).mpr ⟨kept, found⟩, eligible, ?_⟩
    intro child member childNode childFound
    exact leaf child ((pruned.children _ _).mp member).1 childNode
      ((pruned.find _ _).mp childFound).2
  rintro ⟨node, found, eligible, leaf⟩
  obtain ⟨kept, oldFound⟩ := (pruned.find _ _).mp found
  refine ⟨kept, node, oldFound, eligible, ?_⟩
  intro child member childNode childFound
  have childKept : keep child := by
    by_contra removed
    obtain ⟨_, otherFound, notRoot, link⟩ := (coherent.children _ _).mp member
    exact unaffected (link ▸ pruned.covered otherFound notRoot removed (link ▸ kept))
  exact leaf child ((pruned.children _ _).mpr ⟨member, kept, childKept⟩) childNode
    ((pruned.find _ _).mpr ⟨childKept, childFound⟩)

theorem Coherent.prune (coherent : view.Coherent)
    (pruning : view.Pruning final.finalized keep) (pruned : view.Pruned final keep affected) :
    final.Coherent where
  toShaped := pruned.shaped pruning coherent.toShaped
  work := by
    intro hash node parent found notRoot parentFound
    obtain ⟨kept, oldFound⟩ := (pruned.find _ _).mp found
    exact coherent.work oldFound (pruning.closed oldFound kept notRoot).1
      ((pruned.find _ _).mp parentFound).2
  rootInherits := by
    intro node found
    obtain ⟨root, rootFound, _, inherited⟩ := pruning.root
    obtain rfl := mem_unique ((pruned.find _ _).mp found).2 rootFound
    exact inherited
  inherits := by
    intro hash node parent found notRoot parentFound
    obtain ⟨kept, oldFound⟩ := (pruned.find _ _).mp found
    exact coherent.inherits oldFound (pruning.closed oldFound kept notRoot).1
      ((pruned.find _ _).mp parentFound).2
  tips := pruned.tips_exact coherent

theorem Shaped.descends_pruning (shaped : view.Shaped) {finalized : Frontier}
    (found : view.find finalized.hash = some node) (height : node.height = finalized.height)
    (inherited : node.eligibility.inheritedFrom = none) :
    view.Pruning finalized (view.Descends finalized.hash) where
  root := ⟨node, found, height, inherited⟩
  rootKept := Descends.refl
  closed := by
    intro hash hashNode hashFound descends notRoot
    cases descends with
    | refl => exact absurd rfl notRoot
    | child childFound childNotRoot upper =>
      obtain rfl := mem_unique hashFound childFound
      exact ⟨childNotRoot, upper⟩
  rootParent := by
    intro root rootFound notRoot descends
    obtain ⟨parent, parentFound, _⟩ := shaped.parent rootFound notRoot
    have lower := (shaped.descends_height descends rootFound parentFound).1
    omega

theorem Shaped.descends_children (shaped : view.Shaped) {ancestor parent child : Hash}
    (found : view.find ancestor = some node) (member : child ∈ view.childrenOf parent) :
    view.Descends ancestor parent ↔ view.Descends ancestor child ∧ child ≠ ancestor := by
  obtain ⟨_, childFound, notRoot, link⟩ := (shaped.children _ _).mp member
  constructor
  · intro descends
    refine ⟨Descends.child childFound notRoot (link ▸ descends), ?_⟩
    rintro rfl
    obtain ⟨_, parentFound, _⟩ := shaped.parent childFound notRoot
    have lower := (shaped.descends_height (link ▸ descends) childFound parentFound).1
    omega
  rintro ⟨descends, different⟩
  cases descends with
  | refl => exact absurd rfl different
  | child otherFound _ upper =>
    obtain rfl := mem_unique childFound otherFound
    exact link ▸ upper

theorem Shaped.leaf_pruning (shaped : view.Shaped) (coherent : view.Coherent)
    (noChildren : view.childrenOf leaf = ∅) (notRoot : leaf ≠ view.finalized.hash) :
    view.Pruning view.finalized (· ≠ leaf) where
  root := by
    obtain ⟨root, found, height⟩ := shaped.root
    exact ⟨root, found, height, coherent.rootInherits found⟩
  rootKept := notRoot.symm
  closed := by
    intro hash node found _ hashNotRoot
    refine ⟨hashNotRoot, ?_⟩
    rintro rfl
    have member := shaped.mem_children found hashNotRoot
    simp [noChildren] at member
  rootParent := fun _ different => absurd rfl different

end

theorem Bounded.attach (bounded : view.Bounded) (attached : view.Attached final node)
    (height : node.height ≤ Height.maximum) : final.Bounded := by
  intro hash found retained notRoot
  rw [attached.find] at retained
  split at retained
  · simp only [some.injEq] at retained
    exact retained ▸ height
  · exact bounded _ _ retained (attached.finalized ▸ notRoot)

theorem Bounded.prune {keep : Hash → Prop} (bounded : view.Bounded)
    (pruning : view.Pruning final.finalized keep) (pruned : view.Pruned final keep affected) :
    final.Bounded := by
  intro hash node found notRoot
  obtain ⟨kept, oldFound⟩ := (pruned.find _ _).mp found
  exact bounded _ _ oldFound (pruning.closed oldFound kept notRoot).1

section

variable {anchor : HeaderNode}

variable {coordinate : WorkCoordinate}

section

variable (coherent : view.Coherent) (rootFound : view.find view.finalized.hash = some anchor)
  (found : view.find hash = some node)
include coherent rootFound found

theorem Coherent.coordinate_above_root :
    node.workCoordinate.originHash = anchor.workCoordinate.originHash ∧
      anchor.workCoordinate.cumulative ≤ node.workCoordinate.cumulative := by
  have descends := coherent.descends_root found
  induction descends generalizing node with
  | refl =>
    obtain rfl := mem_unique rootFound found
    exact ⟨rfl, le_refl _⟩
  | child childFound notRoot _ ih =>
    obtain rfl := mem_unique childFound found
    obtain ⟨parent, parentFound, _⟩ := coherent.parent childFound notRoot
    obtain ⟨origin, _⟩ := ih parentFound
    obtain ⟨sameOrigin, _, _⟩ :=
      checkedAdd_eq_ok.mp (coherent.work childFound notRoot parentFound)
    exact ⟨sameOrigin.trans origin, by omega⟩

theorem Coherent.rebasedCoordinate_eq :
    rebasedCoordinate view.finalized.hash anchor.workCoordinate node = .ok {
      originHash := view.finalized.hash
      cumulative := node.workCoordinate.cumulative - anchor.workCoordinate.cumulative } := by
  obtain ⟨origin, _⟩ := coherent.coordinate_above_root rootFound found
  have suffix : node.workCoordinate.suffixAfter anchor.workCoordinate =
      .ok (node.workCoordinate.cumulative - anchor.workCoordinate.cumulative) :=
    suffixAfter_eq_ok.mpr ⟨origin, by omega⟩
  simp [rebasedCoordinate, suffix]

theorem Coherent.rebaseNode_eq :
    rebaseNode view.finalized.hash anchor.workCoordinate node = { node with workCoordinate := {
      originHash := view.finalized.hash
      cumulative := node.workCoordinate.cumulative - anchor.workCoordinate.cumulative } } := by
  simp [rebaseNode, coherent.rebasedCoordinate_eq rootFound found]

end

structure Rebased (view final : HeaderGraphView) (anchor : WorkCoordinate) : Prop where
  finalized : final.finalized = view.finalized
  find : ∀ hash, final.find hash =
    (view.find hash).map (rebaseNode view.finalized.hash anchor)
  children : final.childrenOf = view.childrenOf
  hashes : final.hashesAt = view.hashesAt
  tips : final.tips = view.tips

theorem Rebased.found (rebased : view.Rebased final coordinate)
    (found : final.find hash = some node) : ∃ old, view.find hash = some old ∧
      node = rebaseNode view.finalized.hash coordinate old := by
  rw [rebased.find, map_eq_some_iff] at found
  obtain ⟨old, oldFound, same⟩ := found
  exact ⟨old, oldFound, same.symm⟩

theorem Rebased.view_eq (first : view.Rebased final coordinate)
    (second : view.Rebased other coordinate) (preferred : final.preferred = other.preferred) :
    final = other := by
  have find : final.find = other.find := by
    funext hash
    rw [first.find, second.find]
  have finalized := first.finalized.trans second.finalized.symm
  have children := first.children.trans second.children.symm
  have hashes := first.hashes.trans second.hashes.symm
  have tips := first.tips.trans second.tips.symm
  cases final
  cases other
  simp_all

theorem Rebased.isEligibleHeaderTip (rebased : view.Rebased final coordinate) (hash : Hash) :
    final.isEligibleHeaderTip hash = view.isEligibleHeaderTip hash := by
  have own (query : Hash) : final.eligibleAt query = view.eligibleAt query := by
    unfold eligibleAt
    rw [rebased.find]
    cases view.find query <;> simp [rebaseNode_isEligible]
  exact isEligibleHeaderTip_congr (own hash) (by simp [rebased.children]) fun child _ => own child

theorem Bounded.rebase (bounded : view.Bounded) (rebased : view.Rebased final coordinate) :
    final.Bounded := by
  intro hash node found notRoot
  obtain ⟨old, oldFound, rfl⟩ := rebased.found found
  rw [(rebaseNode_links _ _ old).height]
  exact bounded _ _ oldFound (rebased.finalized ▸ notRoot)

theorem Coherent.rebase (coherent : view.Coherent)
    (rootFound : view.find view.finalized.hash = some anchor)
    (rebased : view.Rebased final anchor.workCoordinate) : final.Coherent where
  toShaped := by
    apply coherent.toShaped.of_links rebased.finalized rebased.children rebased.hashes
    · intro hash node found
      obtain ⟨old, oldFound, rfl⟩ := rebased.found found
      exact ⟨old, oldFound, rebaseNode_links _ _ old⟩
    intro hash old oldFound
    obtain ⟨sameHash, sameParent, sameHeight⟩ :=
      rebaseNode_links view.finalized.hash anchor.workCoordinate old
    refine ⟨rebaseNode view.finalized.hash anchor.workCoordinate old, ?_, ?_⟩
    · simp [rebased.find, oldFound]
    · exact ⟨sameHash.symm, sameParent.symm, sameHeight.symm⟩
  work := by
    intro hash node parent found notRoot parentFound
    obtain ⟨old, oldFound, rfl⟩ := rebased.found found
    obtain ⟨oldParent, oldParentFound, rfl⟩ := rebased.found parentFound
    rw [(rebaseNode_links _ _ old).parentHash] at oldParentFound
    have work := coherent.work oldFound (rebased.finalized ▸ notRoot) oldParentFound
    obtain ⟨_, _, _⟩ := checkedAdd_eq_ok.mp work
    have lower := (coherent.coordinate_above_root rootFound oldParentFound).2
    rw [coherent.rebaseNode_eq rootFound oldFound, coherent.rebaseNode_eq rootFound oldParentFound]
    refine checkedAdd_eq_ok.mpr ⟨rfl, ?_, ?_⟩
    · simp only
      omega
    · simp only
      omega
  rootInherits := by
    intro node found
    rw [rebased.finalized] at found
    obtain ⟨old, oldFound, rfl⟩ := rebased.found found
    rw [rebaseNode_eligibility]
    exact coherent.rootInherits oldFound
  inherits := by
    intro hash node parent found notRoot parentFound
    obtain ⟨old, oldFound, rfl⟩ := rebased.found found
    obtain ⟨oldParent, oldParentFound, rfl⟩ := rebased.found parentFound
    rw [(rebaseNode_links _ _ old).parentHash] at oldParentFound ⊢
    rw [rebaseNode_eligibility, rebaseNode_inheritedByChildren]
    exact coherent.inherits oldFound (rebased.finalized ▸ notRoot) oldParentFound
  tips := by
    intro hash
    rw [rebased.tips, rebased.isEligibleHeaderTip]
    exact coherent.tips hash

end

def SameUpToRebase (view final : HeaderGraphView) : Prop :=
  (∀ hash, final.find hash = view.find hash) ∨
    ∃ coordinate, ∀ hash, final.find hash =
      (view.find hash).map (rebaseNode view.finalized.hash coordinate)

section

variable (same : view.SameUpToRebase final)
include same

theorem SameUpToRebase.find (found : view.find hash = some node) :
    ∃ moved, final.find hash = some moved ∧
      moved = { node with workCoordinate := moved.workCoordinate } := by
  rcases same with equal | ⟨coordinate, rebased⟩
  · exact ⟨node, by rw [equal, found], rfl⟩
  · refine ⟨rebaseNode view.finalized.hash coordinate node, by rw [rebased, found]; rfl, ?_⟩
    unfold rebaseNode
    split <;> rfl

theorem SameUpToRebase.row (found : final.find hash = some node) :
    ∃ old, view.find hash = some old ∧
      node = { old with workCoordinate := node.workCoordinate } := by
  rcases same with equal | ⟨_, rebased⟩
  · exact ⟨node, (equal hash).symm.trans found, rfl⟩
  rw [rebased, map_eq_some_iff] at found
  obtain ⟨old, oldFound, rfl⟩ := found
  refine ⟨old, oldFound, ?_⟩
  unfold rebaseNode
  split <;> rfl

theorem SameUpToRebase.fresh (absent : view.find hash = none) : final.find hash = none := by
  rcases same with equal | ⟨_, rebased⟩
  · rw [equal, absent]
  · rw [rebased, absent]
    rfl

theorem SameUpToRebase.attachment [HeaderHasher] {header : Header} {height blockWork : Nat}
    {coordinate : WorkCoordinate} {parent moved : HeaderNode} {validation : HeaderValidationState}
    (absent : view.find header.hash = none)
    (parentFound : view.find header.previousBlockHash = some parent)
    (next : Height.next parent.height = some height)
    (movedFound : final.find header.previousBlockHash = some moved)
    (sum : moved.workCoordinate.checkedAdd blockWork = .ok coordinate)
    (reasons : Finset EligibilityReason) (body : BodyValidationState) :
    final.Attachment (HeaderNode.ofHeader header parent height blockWork coordinate
      validation reasons body) moved := by
  obtain ⟨_, otherFound, row⟩ := same.find parentFound
  obtain rfl := mem_unique movedFound otherFound
  have sameHeight : moved.height = parent.height := by rw [row]
  have sameEligible : moved.isEligible = parent.isEligible := by
    rw [row]
    rfl
  obtain ⟨successor, _⟩ := Height.next_eq_some.mp next
  constructor
  · exact same.fresh absent
  · exact movedFound
  · simp [HeaderNode.ofHeader, successor, sameHeight]
  · exact sum
  · simp [HeaderNode.ofHeader, HeaderNode.inheritedByChildren, sameEligible]

end

end HeaderGraphView

end Zakura.HeaderChain
