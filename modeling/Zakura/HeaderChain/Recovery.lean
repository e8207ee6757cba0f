import Zakura.HeaderChain.RecoveryCore
import Zakura.HeaderChain.StoreInvariant

/-!
What a successful reconstruction guarantees for arbitrary durable rows: the
pairwise checks and one pass in ascending height give a coherent store.
-/

namespace Zakura.HeaderChain

open FiniteMap List

variable {node parent row root : HeaderNode} {inherited : FiniteMap Hash (Option Hash)}
  {store : MemHeaderStore} {hash : Hash} {value : Option Hash} {processed rest : List HeaderNode}
  {durable : HeaderGraphReconstruction}

namespace HeaderGraphReconstruction

section

structure ParentChecked (durable : HeaderGraphReconstruction) (node parent : HeaderNode) :
    Prop where
  found : durable.nodeMap.lookup node.parentHash = some parent
  height : Height.next parent.height = some node.height
  work : parent.workCoordinate.checkedAdd node.blockWork = .ok node.workCoordinate

theorem parentError_eq_none (node : HeaderNode) : durable.parentError node = none ↔
      (node.hash ≠ durable.finalizedFrontier.hash →
        ∃ parent, durable.ParentChecked node parent) := by
  unfold parentError
  split
  next atRoot =>
    simp [atRoot]
  rename_i notRoot
  constructor
  · intro passed _
    split at passed
    · simp at passed
    rename_i parent found
    split_ifs at passed with height
    split at passed
    · simp at passed
    next sum =>
      split_ifs at passed with same
      exact ⟨parent, found, not_not.mp height, by rw [sum, not_not.mp same]⟩
  · intro checked
    obtain ⟨parent, found, height, work⟩ := checked notRoot
    simp [found, height, work]

theorem verdictError_eq_none (node : HeaderNode) : durable.verdictError node = none ↔
      (node.bodyValidationState.isConsensusInvalid = true →
        ∃ row, durable.tombstoneMap.lookup node.hash = some row ∧
          row.bodyState = node.bodyValidationState) := by
  simp [verdictError, Option.any_eq_true]

theorem tombstoneError_eq_none (seen : FiniteMap Hash ConsensusInvalidBodyTombstone)
    (rows : List ConsensusInvalidBodyTombstone) : tombstoneError seen rows = none ↔
      (rows.map ConsensusInvalidBodyTombstone.hash).Nodup ∧
        ∀ row ∈ rows, seen.lookup row.hash = none := by
  induction rows generalizing seen with
  | nil => simp [tombstoneError]
  | cons row rest ih =>
    rw [tombstoneError]
    cases known : seen.lookup row.hash with
    | some existing =>
      dsimp only
      split <;> simp [known]
    | none =>
      simp only [ih, map_cons, nodup_cons, mem_map, mem_cons,
        forall_eq_or_imp, known, true_and, lookup_insert_ite]
      constructor
      · rintro ⟨distinct, absent⟩
        refine ⟨⟨?_, distinct⟩, ?_⟩
        · rintro ⟨other, member, same⟩
          simpa [same] using absent other member
        intro other member
        have unseen := absent other member
        split at unseen
        · simp at unseen
        · exact unseen
      · rintro ⟨⟨fresh, distinct⟩, absent⟩
        refine ⟨distinct, fun other member => ?_⟩
        rw [if_neg fun same => fresh ⟨other, member, same⟩]
        exact absent other member

theorem lookup_nodeMap (distinct : (durable.headerNodes.map HeaderNode.hash).Nodup) (hash : Hash)
    (node : HeaderNode) :
    durable.nodeMap.lookup hash = some node ↔ node ∈ durable.headerNodes ∧ node.hash = hash :=
  lookup_indexBy distinct hash node

variable [HeaderHasher]

structure RowChecked (durable : HeaderGraphReconstruction) (anchor : WorkCoordinate)
    (node : HeaderNode) : Prop where
  canonicalHash : node.header.hash = node.hash
  canonicalParent : node.header.previousBlockHash = node.parentHash
  canonicalWork : node.header.difficultyThreshold.toWork = some node.blockWork
  origin : node.workCoordinate.originHash = anchor.originHash
  parent : node.hash ≠ durable.finalizedFrontier.hash → ∃ parent, durable.ParentChecked node parent
  verdict : node.bodyValidationState.isConsensusInvalid = true →
    ∃ row, durable.tombstoneMap.lookup node.hash = some row ∧
      row.bodyState = node.bodyValidationState

theorem rowError_eq_none (anchor : WorkCoordinate) (node : HeaderNode) :
    durable.rowError anchor node = none ↔ durable.RowChecked anchor node := by
  constructor
  · intro passed
    unfold rowError at passed
    split_ifs at passed with hash parent work origin
    rw [Option.or_eq_none_iff, parentError_eq_none, verdictError_eq_none] at passed
    exact ⟨not_not.mp hash, not_not.mp parent, not_not.mp work, not_not.mp origin, passed.1,
      passed.2⟩
  · intro checked
    simp only [rowError, checked.canonicalHash, checked.canonicalParent, checked.canonicalWork,
      checked.origin, ne_eq, not_true_eq_false, if_false]
    rw [Option.or_eq_none_iff, parentError_eq_none, verdictError_eq_none]
    exact ⟨checked.parent, checked.verdict⟩

structure Checked (durable : HeaderGraphReconstruction) (root : HeaderNode) : Prop where
  distinct : (durable.headerNodes.map HeaderNode.hash).Nodup
  tombstonesDistinct :
    (durable.consensusInvalidBodyTombstones.map ConsensusInvalidBodyTombstone.hash).Nodup
  rootFound : durable.nodeMap.lookup durable.finalizedFrontier.hash = some root
  rootHeight : root.height = durable.finalizedFrontier.height
  rows : ∀ node ∈ durable.headerNodes, durable.RowChecked root.workCoordinate node

theorem inputError_eq_none : durable.inputError = none ↔ ∃ root, durable.Checked root := by
  simp only [inputError, Option.or_eq_none_iff, Option.map_eq_none_iff, firstDuplicate_eq_none,
    tombstoneError_eq_none, Finmap.lookup_empty, implies_true, and_true]
  constructor
  · rintro ⟨⟨distinct, tombstonesDistinct⟩, passed⟩
    split at passed
    · simp at passed
    rename_i root rootFound
    split_ifs at passed with height
    refine ⟨root, distinct, tombstonesDistinct, rootFound, not_not.mp height, ?_⟩
    intro node member
    rw [findSome?_eq_none_iff] at passed
    exact (rowError_eq_none _ _).mp (passed node (mem_values.mpr
      ⟨node.hash, (lookup_nodeMap distinct _ _).mpr ⟨member, rfl⟩⟩))
  · rintro ⟨root, checked⟩
    refine ⟨⟨checked.distinct, checked.tombstonesDistinct⟩, ?_⟩
    rw [checked.rootFound]
    simp only [checked.rootHeight, ne_eq, not_true_eq_false, if_false, findSome?_eq_none_iff]
    intro node member
    obtain ⟨hash, found⟩ := mem_values.mp member
    exact (rowError_eq_none _ _).mpr
      (checked.rows node ((lookup_nodeMap checked.distinct _ _).mp found).1)

end

theorem verdictRows_found (found : durable.verdictRows.lookup hash = some node) :
    ∃ row, durable.nodeMap.lookup hash = some row ∧ SameImmutable node row ∧
      node.validation = row.validation ∧
      node.eligibility.directReasons = row.eligibility.directReasons := by
  rw [verdictRows, lookup_mapValues, Option.map_eq_some_iff] at found
  obtain ⟨row, rowFound, rfl⟩ := found
  refine ⟨row, rowFound, ?_⟩
  split
  · exact ⟨⟨⟨rfl, rfl, rfl⟩, rfl, rfl, rfl⟩, rfl, rfl⟩
  · exact ⟨⟨⟨rfl, rfl, rfl⟩, rfl, rfl, rfl⟩, rfl, rfl⟩

theorem verdictRows_of_nodeMap (found : durable.nodeMap.lookup hash = some row) :
    ∃ node, durable.verdictRows.lookup hash = some node ∧ SameImmutable row node := by
  refine ⟨_, by rw [verdictRows, lookup_mapValues, found]; rfl, ?_⟩
  split <;> exact ⟨⟨rfl, rfl, rfl⟩, rfl, rfl, rfl⟩

structure Linked (rows : FiniteMap Hash HeaderNode) (finalized : Frontier) : Prop where
  keyed : ∀ {hash node}, rows.lookup hash = some node → node.hash = hash
  root : ∃ node, rows.lookup finalized.hash = some node ∧ node.height = finalized.height
  parent : ∀ {hash node}, rows.lookup hash = some node → hash ≠ finalized.hash →
    ∃ parent, rows.lookup node.parentHash = some parent ∧
      Height.next parent.height = some node.height ∧
      parent.workCoordinate.checkedAdd node.blockWork = .ok node.workCoordinate

theorem Checked.linked [HeaderHasher] (checked : durable.Checked root) :
    Linked durable.verdictRows durable.finalizedFrontier where
  keyed := by
    intro hash node found
    obtain ⟨row, rowFound, same, _⟩ := verdictRows_found found
    rw [same.hash]
    exact ((lookup_nodeMap checked.distinct _ _).mp rowFound).2
  root := by
    obtain ⟨node, found, same⟩ := verdictRows_of_nodeMap checked.rootFound
    exact ⟨node, found, by rw [← same.height, checked.rootHeight]⟩
  parent := by
    intro hash node found notRoot
    obtain ⟨row, rowFound, same, _⟩ := verdictRows_found found
    obtain ⟨member, keyed⟩ := (lookup_nodeMap checked.distinct _ _).mp rowFound
    obtain ⟨parent, parentChecked⟩ := (checked.rows row member).parent (keyed ▸ notRoot)
    obtain ⟨moved, movedFound, sameParent⟩ := verdictRows_of_nodeMap parentChecked.found
    refine ⟨moved, same.parentHash ▸ movedFound, ?_, ?_⟩
    · rw [← sameParent.height, same.height]
      exact parentChecked.height
    · rw [← sameParent.workCoordinate, same.blockWork, same.workCoordinate]
      exact parentChecked.work

section

variable {rows : FiniteMap Hash HeaderNode} {finalized : Frontier}

def Derived (rows : FiniteMap Hash HeaderNode) (finalized : Frontier)
    (inherited : FiniteMap Hash (Option Hash)) (node : HeaderNode) : Prop :=
  if node.hash = finalized.hash then inherited.lookup node.hash = some none
  else ∃ parent, rows.lookup node.parentHash = some parent ∧
    inherited.lookup node.hash =
      some (if parentEligible inherited parent then none else some parent.hash)

structure InheritProgress (rows : FiniteMap Hash HeaderNode) (finalized : Frontier)
    (inherited : FiniteMap Hash (Option Hash)) (processed : List HeaderNode) : Prop where
  derived : ∀ node ∈ processed, Derived rows finalized inherited node
  closed : ∀ node ∈ processed, node.hash ≠ finalized.hash →
    ∀ parent, rows.lookup node.parentHash = some parent → parent ∈ processed

theorem Linked.mem_values (linked : Linked rows finalized) :
    node ∈ rows.values ↔ rows.lookup node.hash = some node := by
  rw [← mem_values_keyed fun _ _ found => linked.keyed found]
  simp

theorem Linked.eq_of_hash (linked : Linked rows finalized) {first second : HeaderNode}
    (firstMember : first ∈ rows.values) (secondMember : second ∈ rows.values)
    (same : first.hash = second.hash) : first = second := by
  rw [linked.mem_values] at firstMember secondMember
  exact Option.mem_unique (same ▸ firstMember) secondMember

theorem parentEligible_insert_ne (different : parent.hash ≠ hash) :
    parentEligible (inherited.insert hash value) parent = parentEligible inherited parent := by
  simp only [parentEligible, lookup_insert_ite, different, if_false]

section

variable (linked : Linked rows finalized)
include linked

theorem InheritProgress.step (progress : InheritProgress rows finalized inherited processed)
    (stored : ∀ other ∈ processed, other ∈ rows.values) (member : node ∈ rows.values)
    (fresh : node ∉ processed)
    (parentEarlier : node.hash ≠ finalized.hash → ∀ parent, rows.lookup node.parentHash = some
      parent → parent ∈ processed) :
    InheritProgress rows finalized (inheritStep rows finalized inherited node)
      (processed ++ [node]) := by
  have found := linked.mem_values.mp member
  have other_ne {other : HeaderNode} (early : other ∈ processed) : other.hash ≠ node.hash := by
    intro same
    exact fresh (linked.eq_of_hash (stored other early) member same ▸ early)
  have keeps (value : Option Hash) (other : HeaderNode) (early : other ∈ processed) :
      Derived rows finalized (inherited.insert node.hash value) other := by
    have derived := progress.derived other early
    unfold Derived at derived ⊢
    rw [lookup_insert_ite, if_neg (other_ne early)]
    split at derived
    next atRoot =>
      rw [if_pos atRoot]
      exact derived
    rename_i notRoot
    rw [if_neg notRoot]
    obtain ⟨parent, parentFound, value⟩ := derived
    have parentEarly := progress.closed other early notRoot parent parentFound
    exact ⟨parent, parentFound, by rw [parentEligible_insert_ne (other_ne parentEarly), value]⟩
  have closed : ∀ other ∈ processed ++ [node], other.hash ≠ finalized.hash →
      ∀ parent, rows.lookup other.parentHash = some parent → parent ∈ processed ++ [node] := by
    intro other early notRoot parent parentFound
    rw [mem_append, mem_singleton] at early ⊢
    rcases early with early | rfl
    · exact .inl (progress.closed other early notRoot parent parentFound)
    · exact .inl (parentEarlier notRoot parent parentFound)
  refine ⟨?_, closed⟩
  intro other early
  rw [mem_append, mem_singleton] at early
  unfold inheritStep
  by_cases atRoot : node.hash = finalized.hash
  · obtain ⟨_, rootFound, rootHeight⟩ := linked.root
    rw [atRoot, rootFound] at found
    have frontier : ({ height := node.height, hash := node.hash } : Frontier) = finalized :=
      Frontier.ext ((Option.some.inj found) ▸ rootHeight) atRoot
    rw [if_pos frontier]
    rcases early with early | rfl
    · exact keeps _ other early
    · unfold Derived
      rw [if_pos atRoot, lookup_insert_ite, if_pos rfl]
  rw [if_neg fun frontier => atRoot (congrArg Frontier.hash frontier)]
  obtain ⟨parent, parentFound, _, _⟩ := linked.parent found atRoot
  rw [parentFound]
  rcases early with early | rfl
  · exact keeps _ other early
  have parentEarly := parentEarlier atRoot parent parentFound
  unfold Derived
  rw [if_neg atRoot]
  refine ⟨parent, parentFound, ?_⟩
  rw [parentEligible_insert_ne (other_ne parentEarly), lookup_insert_ite, if_pos rfl]

theorem Linked.parent_earlier (sorted : sortRows rows.values = processed ++ node :: rest)
    (notRoot : node.hash ≠ finalized.hash) (parentFound : rows.lookup node.parentHash = some parent) :
    parent ∈ processed := by
  have member (other : HeaderNode) : other ∈ processed ++ node :: rest ↔ other ∈ rows.values := by
    rw [← sorted, sortRows, mem_insertionSort]
  have found := linked.mem_values.mp ((member node).mp (by simp))
  have lower : parent.height < node.height := by
    obtain ⟨other, otherFound, next, _⟩ := linked.parent found notRoot
    obtain rfl := Option.mem_unique parentFound otherFound
    obtain ⟨_, _⟩ := Height.next_eq_some.mp next
    omega
  have listed : parent ∈ processed ++ node :: rest :=
    (member parent).mpr (linked.mem_values.mpr (by rw [linked.keyed parentFound, parentFound]))
  have ordered : (processed ++ node :: rest).Pairwise fun first second =>
      toLex (first.height, first.hash) ≤ toLex (second.height, second.hash) := by
    rw [← sorted]
    exact pairwise_insertionSort _ _
  rcases mem_append.mp listed with early | late
  · exact early
  rcases mem_cons.mp late with same | later
  · rw [same] at lower
    exact absurd lower (lt_irrefl _)
  · have after := (pairwise_cons.mp (pairwise_append.mp ordered).2.1).1 parent later
    have heights : node.height ≤ parent.height := Prod.Lex.monotone_fst _ _ after
    omega

theorem inheritPass_progress (distinct : (sortRows rows.values).Nodup)
    (processed rest : List HeaderNode) (sorted : sortRows rows.values = processed ++ rest)
    (inherited : FiniteMap Hash (Option Hash))
    (progress : InheritProgress rows finalized inherited processed) :
    InheritProgress rows finalized (rest.foldl (inheritStep rows finalized) inherited)
      (sortRows rows.values) := by
  induction rest generalizing processed inherited with
  | nil =>
    rw [sorted, append_nil]
    exact progress
  | cons node rest ih =>
    have listed {other : HeaderNode} (member : other ∈ processed ++ node :: rest) :
        other ∈ rows.values := by
      rw [← sorted, sortRows, mem_insertionSort] at member
      exact member
    have fresh : node ∉ processed := by
      rw [sorted, nodup_append] at distinct
      exact fun early => distinct.2.2 node early node (by simp) rfl
    apply ih (processed ++ [node]) (by simpa using sorted)
    apply progress.step linked
    · exact fun other early => listed (mem_append.mpr (.inl early))
    · exact listed (by simp)
    · exact fresh
    · exact fun notRoot parent parentFound => linked.parent_earlier sorted notRoot parentFound

end

end

section

theorem finalRows_direct : SameDirect durable.finalRows.lookup durable.verdictRows.lookup := by
  intro hash
  simp only [finalRows, lookup_mapValues, Option.map_map]
  congr 1
  funext row
  simp only [Function.comp]
  split <;> rfl

theorem parentEligible_eq (found : inherited.lookup row.hash = some value) :
    parentEligible inherited row = (row.withInheritedFrom value).isEligible := by
  rw [Bool.eq_iff_iff, HeaderNode.isEligible_eq_true]
  simp only [parentEligible, found, HeaderNode.withInheritedFrom, Bool.and_eq_true,
    decide_eq_true_eq, Bool.not_eq_true', Option.some.injEq, and_assoc]

variable [HeaderHasher]

section

variable (checked : durable.Checked root)
include checked

theorem Checked.inheritance_progress :
    InheritProgress durable.verdictRows durable.finalizedFrontier durable.inheritance
      (sortRows durable.verdictRows.values) := by
  have linked := checked.linked
  apply inheritPass_progress linked ?_ [] _ rfl
  · exact ⟨by simp, by simp⟩
  · have keys : (durable.verdictRows.values.map HeaderNode.hash).Nodup :=
      nodup_values_map fun _ _ found => linked.keyed found
    exact (perm_insertionSort _ _).nodup_iff.mpr keys.of_map

theorem Checked.finalRows_found (found : durable.finalRows.lookup hash = some node) :
    ∃ row inherited, durable.verdictRows.lookup hash = some row ∧
      durable.inheritance.lookup hash = some inherited ∧ node = row.withInheritedFrom inherited ∧
      Derived durable.verdictRows durable.finalizedFrontier durable.inheritance row := by
  rw [finalRows, lookup_mapValues, Option.map_eq_some_iff] at found
  obtain ⟨row, rowFound, rfl⟩ := found
  have key := checked.linked.keyed rowFound
  have derived := checked.inheritance_progress.derived row (by
    rw [sortRows, mem_insertionSort]
    exact checked.linked.mem_values.mpr (key ▸ rowFound))
  obtain ⟨inherited, value⟩ : ∃ inherited, durable.inheritance.lookup hash = some inherited := by
    unfold Derived at derived
    rw [key] at derived
    split at derived
    · exact ⟨_, derived⟩
    · obtain ⟨_, _, value⟩ := derived
      exact ⟨_, value⟩
  exact ⟨row, inherited, rowFound, value, by rw [value], derived⟩

theorem Checked.finalLinked : Linked durable.finalRows durable.finalizedFrontier where
  keyed := by
    intro hash node found
    obtain ⟨row, inherited, rowFound, _, rfl, _⟩ := checked.finalRows_found found
    have key := checked.linked.keyed rowFound
    exact key
  root := by
    obtain ⟨row, rowFound, height⟩ := checked.linked.root
    obtain ⟨node, found, same⟩ := finalRows_direct.symm.find rowFound
    exact ⟨node, found, by rw [← (SameLinks.of_directRow same).height, height]⟩
  parent := by
    intro hash node found notRoot
    obtain ⟨row, inherited, rowFound, _, rfl, _⟩ := checked.finalRows_found found
    obtain ⟨parent, parentFound, next, work⟩ := checked.linked.parent rowFound notRoot
    obtain ⟨moved, movedFound, same⟩ := finalRows_direct.symm.find parentFound
    have immutable := SameImmutable.of_directRow same
    exact ⟨moved, movedFound, immutable.height ▸ next, immutable.workCoordinate ▸ work⟩

theorem Checked.inherits (found : durable.finalRows.lookup hash = some node)
    (notRoot : hash ≠ durable.finalizedFrontier.hash)
    (parentFound : durable.finalRows.lookup node.parentHash = some parent) :
    node.eligibility.inheritedFrom = parent.inheritedByChildren node.parentHash := by
  obtain ⟨_, _, rowFound, value, rfl, derived⟩ := checked.finalRows_found found
  obtain ⟨_, _, parentRowFound, parentValue, rfl, _⟩ :=
    checked.finalRows_found parentFound
  have key := checked.linked.keyed rowFound
  have parentKey := checked.linked.keyed parentRowFound
  unfold Derived at derived
  rw [if_neg (key ▸ notRoot)] at derived
  obtain ⟨_, otherFound, computed⟩ := derived
  obtain rfl := Option.mem_unique parentRowFound otherFound
  rw [key, value, Option.some.injEq, parentEligible_eq (parentKey ▸ parentValue)] at computed
  rw [HeaderNode.inheritedFrom_withInheritedFrom, computed, parentKey]
  rfl

theorem Checked.rootInherits
    (found : durable.finalRows.lookup durable.finalizedFrontier.hash = some node) :
    node.eligibility.inheritedFrom = none := by
  obtain ⟨_, _, rowFound, value, rfl, derived⟩ := checked.finalRows_found found
  have key := checked.linked.keyed rowFound
  unfold Derived at derived
  rw [if_pos key, key, value] at derived
  exact Option.some.inj derived

end

end

end HeaderGraphReconstruction

namespace MemHeaderStore

open HeaderGraphReconstruction

theorem mem_rebuiltTips
    (keyed : ∀ {hash node}, store.nodes.lookup hash = some node → node.hash = hash) (hash : Hash) :
    hash ∈ store.rebuildEligibleHeaderTips.eligibleHeaderTips ↔
      store.view.isEligibleHeaderTip hash = true := by
  simp only [rebuildEligibleHeaderTips, mem_toFinset, mem_map, mem_filter,
    FiniteMap.mem_values, HeaderGraphView.isEligibleHeaderTip, Option.any_eq_true]
  constructor
  · rintro ⟨node, ⟨⟨_, found⟩, tip⟩, rfl⟩
    have same := keyed found
    exact ⟨node, same ▸ found, tip⟩
  · rintro ⟨node, found, tip⟩
    have same := keyed found
    exact ⟨node, ⟨⟨hash, found⟩, same ▸ tip⟩, same⟩

variable [HeaderHasher]

theorem assembled_invariant (checked : durable.Checked root) :
    durable.assembled.rebuildEligibleHeaderTips.RepresentationInvariant := by
  have linked := checked.finalLinked
  refine ⟨⟨⟨linked.root, linked.keyed, ?_, ?_, ?_⟩, ?_, checked.rootInherits, checked.inherits, ?_⟩,
    ?_, noEmpty_grouped _, noEmpty_grouped _⟩
  · intro hash node found notRoot
    obtain ⟨parent, parentFound, next, _⟩ := linked.parent found notRoot
    exact ⟨parent, parentFound, (Height.next_eq_some.mp next).1⟩
  · intro parent child
    refine (mem_grouped _ _ _).trans ?_
    simp only [mem_map, mem_filter, Prod.mk.injEq, linked.mem_values, decide_eq_true_eq]
    constructor
    · rintro ⟨node, ⟨found, notRoot⟩, link, rfl⟩
      exact ⟨node, found, notRoot, link⟩
    · rintro ⟨node, found, notRoot, link⟩
      have key := linked.keyed found
      exact ⟨node, ⟨key.symm ▸ found, key.symm ▸ notRoot⟩, link, key⟩
  · intro height hash
    refine (mem_grouped _ _ _).trans ?_
    simp only [mem_map, Prod.mk.injEq, linked.mem_values]
    constructor
    · rintro ⟨node, found, heightEq, rfl⟩
      exact ⟨node, found, heightEq⟩
    · rintro ⟨node, found, heightEq⟩
      have key := linked.keyed found
      exact ⟨node, key.symm ▸ found, heightEq, key⟩
  · intro hash node parent found notRoot parentFound
    obtain ⟨_, otherFound, _, work⟩ := linked.parent found notRoot
    exact Option.mem_unique otherFound parentFound ▸ work
  · exact mem_rebuiltTips linked.keyed
  · intro hash node found notRoot
    obtain ⟨parent, _, next, _⟩ := linked.parent found notRoot
    obtain ⟨_, _⟩ := Height.next_eq_some.mp next
    omega

theorem reconstruct_eq_ok : reconstruct durable = .ok store ↔ (∃ root, durable.Checked root) ∧
        (∃ node, durable.finalRows.lookup durable.finalizedFrontier.hash = some node ∧
          node.isEligible = true) ∧ store = durable.assembled.rebuildEligibleHeaderTips := by
  rw [← inputError_eq_none, ← Option.any_eq_true]
  unfold reconstruct
  cases durable.inputError with
  | some error => simp
  | none =>
    dsimp only
    split
    next eligible =>
      simp [eligible, eq_comm]
    next excluded =>
      simp [excluded]

theorem reconstruct_invariant (rebuilt : reconstruct durable = .ok store) :
    store.RepresentationInvariant := by
  obtain ⟨⟨_, checked⟩, _, rfl⟩ := reconstruct_eq_ok.mp rebuilt
  exact assembled_invariant checked

theorem reconstruct_descends (rebuilt : reconstruct durable = .ok store)
    (member : node ∈ durable.headerNodes) :
    (∃ retained, store.nodes.lookup node.hash = some retained ∧ SameImmutable node retained) ∧
      store.view.Descends durable.finalizedFrontier.hash node.hash := by
  have valid := reconstruct_invariant rebuilt
  obtain ⟨⟨_, checked⟩, _, rfl⟩ := reconstruct_eq_ok.mp rebuilt
  have found := (lookup_nodeMap checked.distinct _ _).mpr ⟨member, rfl⟩
  obtain ⟨_, rowFound, sameRow⟩ := verdictRows_of_nodeMap found
  obtain ⟨retained, retainedFound, direct⟩ := finalRows_direct.symm.find rowFound
  have same := sameRow.trans (SameImmutable.of_directRow direct)
  exact ⟨⟨retained, retainedFound, same⟩, valid.coherent.descends_root retainedFound⟩

end MemHeaderStore

end Zakura.HeaderChain
