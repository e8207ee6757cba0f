import Zakura.HeaderChain.View
import Zakura.Lib.Worklist

/-!
Coherence of a retained header graph. Links, indexes, work and eligibility are
local conditions; rootedness and the uniqueness of the derived parts follow
from heights alone.
-/

namespace Zakura.HeaderChain

open FiniteMap Option

variable {view : HeaderGraphView} {hash child parent ancestor : Hash}

namespace HeaderGraphView

structure Shaped (view : HeaderGraphView) : Prop where
  root : ∃ node, view.find view.finalized.hash = some node ∧ node.height = view.finalized.height
  keyed : ∀ {hash node}, view.find hash = some node → node.hash = hash
  parent : ∀ {hash node}, view.find hash = some node → hash ≠ view.finalized.hash →
    ∃ parent, view.find node.parentHash = some parent ∧ node.height = parent.height + 1
  children : ∀ parent child, child ∈ view.childrenOf parent ↔
    ∃ node, view.find child = some node ∧ child ≠ view.finalized.hash ∧ node.parentHash = parent
  heights : ∀ height hash, hash ∈ view.hashesAt height ↔
    ∃ node, view.find hash = some node ∧ node.height = height

structure Coherent (view : HeaderGraphView) : Prop extends Shaped view where
  work : ∀ {hash node parent}, view.find hash = some node → hash ≠ view.finalized.hash →
    view.find node.parentHash = some parent →
      parent.workCoordinate.checkedAdd node.blockWork = .ok node.workCoordinate
  rootInherits : ∀ {node}, view.find view.finalized.hash = some node →
    node.eligibility.inheritedFrom = none
  inherits : ∀ {hash node parent}, view.find hash = some node → hash ≠ view.finalized.hash →
    view.find node.parentHash = some parent →
      node.eligibility.inheritedFrom = parent.inheritedByChildren node.parentHash
  tips : ∀ hash, hash ∈ view.tips ↔ view.isEligibleHeaderTip hash = true

theorem isEligibleHeaderTip_iff : view.isEligibleHeaderTip hash = true ↔
      ∃ node, view.find hash = some node ∧ node.isEligible = true ∧
        ∀ child ∈ view.childrenOf hash, ∀ childNode, view.find child = some childNode →
          childNode.isEligible = false := by
  simp [isEligibleHeaderTip, hasEligibleHeaderChild, any_eq_true]

def eligibleAt (view : HeaderGraphView) (hash : Hash) : Bool :=
  (view.find hash).any HeaderNode.isEligible

theorem isEligibleHeaderTip_iff_eligibleAt : view.isEligibleHeaderTip hash = true ↔
      view.eligibleAt hash = true ∧ ∀ child ∈ view.childrenOf hash, view.eligibleAt child = false := by
  unfold isEligibleHeaderTip eligibleAt
  cases view.find hash <;> simp [hasEligibleHeaderChild]

theorem isEligibleHeaderTip_congr {first second : HeaderGraphView}
    (own : first.eligibleAt hash = second.eligibleAt hash)
    (members : ∀ child, child ∈ first.childrenOf hash ↔ child ∈ second.childrenOf hash)
    (below : ∀ child ∈ second.childrenOf hash, first.eligibleAt child = second.eligibleAt child) :
    first.isEligibleHeaderTip hash = second.isEligibleHeaderTip hash := by
  rw [Bool.eq_iff_iff, isEligibleHeaderTip_iff_eligibleAt, isEligibleHeaderTip_iff_eligibleAt, own]
  simp only [members]
  refine and_congr_right fun _ => forall₂_congr fun child member => ?_
  rw [below child member]

theorem Coherent.tip_found (coherent : view.Coherent) (member : hash ∈ view.tips) :
    ∃ node, view.find hash = some node := by
  obtain ⟨node, found, _⟩ := isEligibleHeaderTip_iff.mp ((coherent.tips hash).mp member)
  exact ⟨node, found⟩

inductive Descends (view : HeaderGraphView) (ancestor : Hash) : Hash → Prop
  | refl : Descends view ancestor ancestor
  | child {hash node} : view.find hash = some node → hash ≠ view.finalized.hash →
      Descends view ancestor node.parentHash → Descends view ancestor hash

theorem Descends.trans {first middle last : Hash} (upper : view.Descends first middle)
    (lower : view.Descends middle last) : view.Descends first last := by
  induction lower with
  | refl => exact upper
  | child found notRoot _ ih => exact Descends.child found notRoot ih

variable {node : HeaderNode}

theorem Descends.first_child (descends : view.Descends ancestor hash) (proper : hash ≠ ancestor) :
    ∃ child node, view.find child = some node ∧ child ≠ view.finalized.hash ∧
      node.parentHash = ancestor ∧ view.Descends child hash := by
  induction descends with
  | refl => exact absurd rfl proper
  | @child hash node found notRoot _ ih =>
    by_cases direct : node.parentHash = ancestor
    · exact ⟨hash, node, found, notRoot, direct, Descends.refl⟩
    · obtain ⟨child, childNode, childFound, childNotRoot, link, below⟩ := ih direct
      exact ⟨child, childNode, childFound, childNotRoot, link, Descends.child found notRoot below⟩

section

variable (shaped : view.Shaped)
include shaped

theorem Shaped.root_height (found : view.find view.finalized.hash = some node) :
    node.height = view.finalized.height := by
  obtain ⟨root, rootFound, height⟩ := shaped.root
  obtain rfl := mem_unique found rootFound
  exact height

theorem Shaped.descends_root (found : view.find hash = some node) :
    view.Descends view.finalized.hash hash := by
  induction height : node.height using Nat.strongRecOn generalizing hash node with
  | ind _ ih =>
    by_cases atRoot : hash = view.finalized.hash
    · exact atRoot ▸ Descends.refl
    · obtain ⟨parent, parentFound, successor⟩ := shaped.parent found atRoot
      exact Descends.child found atRoot (ih parent.height (by omega) parentFound rfl)

theorem Shaped.descends_height {ancestorNode : HeaderNode} (descends : view.Descends ancestor hash)
    (ancestorFound : view.find ancestor = some ancestorNode) (found : view.find hash = some node) :
    ancestorNode.height ≤ node.height ∧ (ancestorNode.height = node.height → ancestor = hash) := by
  induction descends generalizing node with
  | refl =>
    obtain rfl := mem_unique found ancestorFound
    exact ⟨le_refl _, fun _ => rfl⟩
  | child childFound notRoot _ ih =>
    obtain rfl := mem_unique childFound found
    obtain ⟨parent, parentFound, _⟩ := shaped.parent childFound notRoot
    have lower := ih parentFound
    exact ⟨by omega, by omega⟩

section

variable (found : view.find hash = some node)
include found

theorem Shaped.root_le : view.finalized.height ≤ node.height := by
  obtain ⟨_, rootFound, height⟩ := shaped.root
  exact height ▸ (shaped.descends_height (shaped.descends_root found) rootFound found).1

theorem Shaped.eq_root_of_height (height : node.height = view.finalized.height) :
    hash = view.finalized.hash := by
  obtain ⟨_, rootFound, rootHeight⟩ := shaped.root
  exact ((shaped.descends_height (shaped.descends_root found) rootFound found).2
    (rootHeight.trans height.symm)).symm

theorem Shaped.above_root (notRoot : hash ≠ view.finalized.hash) :
    view.finalized.height < node.height :=
  (shaped.root_le found).lt_of_ne fun same => notRoot (shaped.eq_root_of_height found same.symm)

end

theorem Shaped.mem_children (found : view.find child = some node)
    (notRoot : child ≠ view.finalized.hash) : child ∈ view.childrenOf node.parentHash :=
  (shaped.children _ _).mpr ⟨node, found, notRoot, rfl⟩

theorem Shaped.child_height (found : view.find parent = some node)
    (member : child ∈ view.childrenOf parent) :
    ∃ childNode, view.find child = some childNode ∧ child ≠ view.finalized.hash ∧
      childNode.parentHash = parent ∧ childNode.height = node.height + 1 := by
  obtain ⟨childNode, childFound, notRoot, link⟩ := (shaped.children _ _).mp member
  obtain ⟨_, parentFound, height⟩ := shaped.parent childFound notRoot
  rw [link] at parentFound
  obtain rfl := mem_unique found parentFound
  exact ⟨childNode, childFound, notRoot, link, height⟩

theorem Shaped.edge_found (member : child ∈ view.childrenOf parent) :
    (∃ node, view.find parent = some node) ∧ ∃ node, view.find child = some node := by
  obtain ⟨childNode, childFound, notRoot, link⟩ := (shaped.children _ _).mp member
  obtain ⟨parentNode, parentFound, _⟩ := shaped.parent childFound notRoot
  exact ⟨⟨parentNode, link ▸ parentFound⟩, childNode, childFound⟩

theorem Shaped.ancestor_unique {first second : Hash} {firstNode secondNode : HeaderNode}
    (found : view.find hash = some node) (firstDescends : view.Descends first hash)
    (secondDescends : view.Descends second hash) (firstFound : view.find first = some firstNode)
    (secondFound : view.find second = some secondNode)
    (sameHeight : firstNode.height = secondNode.height) : first = second := by
  induction firstDescends generalizing node with
  | refl =>
    obtain rfl := mem_unique found firstFound
    exact ((shaped.descends_height secondDescends secondFound found).2 sameHeight.symm).symm
  | child childFound notRoot upper ih =>
    obtain ⟨parent, parentFound, _⟩ := shaped.parent childFound notRoot
    have firstLower := (shaped.descends_height upper firstFound parentFound).1
    cases secondDescends with
    | refl =>
      obtain rfl := mem_unique childFound secondFound
      omega
    | child otherFound _ otherUpper =>
      obtain rfl := mem_unique childFound otherFound
      exact ih parentFound otherUpper

theorem Shaped.ancestorWalk_spec {height : Nat} (lower : view.finalized.height ≤ height)
    (steps : Nat) (found : view.find hash = some node) (distance : node.height = height + steps) :
    ∃ ancestor, view.find ancestor.hash = some ancestor ∧ ancestor.height = height ∧
      view.Descends ancestor.hash hash ∧
      ancestorWalk view.find height steps node = some ancestor.frontier := by
  induction steps generalizing hash node with
  | zero =>
    have key := shaped.keyed found
    refine ⟨node, ?_, by omega, ?_, ?_⟩
    · rw [key, found]
    · rw [key]
      exact Descends.refl
    · simp [ancestorWalk, show node.height ≤ height by omega]
  | succ steps ih =>
    have notRoot : hash ≠ view.finalized.hash := by
      rintro rfl
      have rootHeight := shaped.root_height found
      omega
    obtain ⟨parent, parentFound, _⟩ := shaped.parent found notRoot
    obtain ⟨ancestor, ancestorFound, ancestorHeight, descends, walked⟩ :=
      ih parentFound (by omega)
    refine ⟨ancestor, ancestorFound, ancestorHeight, Descends.child found notRoot descends, ?_⟩
    simp only [ancestorWalk, show ¬node.height ≤ height by omega, if_false, parentFound]
    exact walked

theorem Shaped.headerAncestor_root (found : view.find hash = some node) :
    view.headerAncestor hash view.finalized.height = .ok (some view.finalized) := by
  have lower := shaped.root_le found
  obtain ⟨ancestor, ancestorFound, ancestorHeight, _, walked⟩ :=
    shaped.ancestorWalk_spec (le_refl _) (node.height - view.finalized.height) found (by omega)
  have atRoot := shaped.eq_root_of_height ancestorFound ancestorHeight
  have frontier : ancestor.frontier = view.finalized := by
    cases finalized : view.finalized with
    | mk height hash => simp_all [HeaderNode.frontier]
  simp only [headerAncestor, headerAncestorIn, found, show ¬node.height < view.finalized.height by
    omega, if_false, walked, frontier]

theorem Shaped.reaches_iff_descends (found : view.find ancestor = some node) :
    Worklist.Reaches (fun item => ascending (view.childrenOf item)) ancestor hash ↔
      view.Descends ancestor hash := by
  constructor
  · intro reached
    induction reached generalizing node with
    | refl _ => exact Descends.refl
    | step member _ ih =>
      obtain ⟨_, childFound, notRoot, link, _⟩ :=
        shaped.child_height found (by simpa using member)
      exact (Descends.child childFound notRoot (link ▸ Descends.refl)).trans (ih childFound)
  intro descends
  have extend {first middle last : Hash}
      (upper : Worklist.Reaches (fun item => ascending (view.childrenOf item)) first middle)
      (member : last ∈ ascending (view.childrenOf middle)) :
      Worklist.Reaches (fun item => ascending (view.childrenOf item)) first last := by
    induction upper with
    | refl _ => exact Worklist.Reaches.step member (Worklist.Reaches.refl _)
    | step first _ ih => exact Worklist.Reaches.step first (ih member)
  induction descends with
  | refl => exact Worklist.Reaches.refl _
  | child childFound notRoot _ ih =>
    exact extend ih (by simpa using shaped.mem_children childFound notRoot)

end

end HeaderGraphView

def SameDirect (first second : Hash → Option HeaderNode) : Prop :=
  ∀ hash, (first hash).map HeaderNode.directRow = (second hash).map HeaderNode.directRow

variable {first second third : Hash → Option HeaderNode}

theorem SameDirect.find (same : SameDirect first second) {node : HeaderNode}
    (found : first hash = some node) :
    ∃ other, second hash = some other ∧ node.directRow = other.directRow := by
  have rows := (same hash).symm
  rw [found, map_some, map_eq_some_iff] at rows
  obtain ⟨other, otherFound, row⟩ := rows
  exact ⟨other, otherFound, row.symm⟩

theorem SameDirect.of_find (forward : ∀ {hash node}, first hash = some node →
      ∃ other, second hash = some other ∧ node.directRow = other.directRow)
    (backward : ∀ {hash other}, second hash = some other → ∃ node, first hash = some node) :
    SameDirect first second := by
  intro hash
  cases found : first hash with
  | some node =>
    obtain ⟨other, otherFound, same⟩ := forward found
    rw [otherFound, map_some, map_some, same]
  | none =>
    cases otherFound : second hash with
    | none => rfl
    | some other =>
      obtain ⟨node, nodeFound⟩ := backward otherFound
      simp [found] at nodeFound

theorem SameDirect.symm (same : SameDirect first second) : SameDirect second first :=
  fun hash => (same hash).symm

theorem SameDirect.trans (left : SameDirect first second) (right : SameDirect second third) :
    SameDirect first third :=
  fun hash => (left hash).trans (right hash)

namespace HeaderGraphView

variable {first second : HeaderGraphView}

theorem Coherent.find_eq (firstCoherent : first.Coherent) (secondCoherent : second.Coherent)
    (finalized : first.finalized = second.finalized)
    (direct : SameDirect first.find second.find) : first.find = second.find := by
  have agree : ∀ height hash node, first.find hash = some node → node.height = height →
      second.find hash = some node := by
    intro height
    induction height using Nat.strongRecOn with
    | ind height ih =>
      intro hash node found heightEq
      obtain ⟨other, otherFound, rows⟩ := direct.find found
      have links := SameLinks.of_directRow rows
      have inherited : node.eligibility.inheritedFrom = other.eligibility.inheritedFrom := by
        by_cases atRoot : hash = first.finalized.hash
        · subst atRoot
          rw [firstCoherent.rootInherits found]
          rw [finalized] at otherFound
          exact (secondCoherent.rootInherits otherFound).symm
        obtain ⟨parent, parentFound, _⟩ := firstCoherent.parent found atRoot
        have parentAgrees := ih parent.height (by omega) _ _ parentFound rfl
        rw [firstCoherent.inherits found atRoot parentFound,
          secondCoherent.inherits otherFound (finalized ▸ atRoot)
            (links.parentHash ▸ parentAgrees), links.parentHash]
      rw [otherFound, HeaderNode.ext_directRow rows inherited]
  funext hash
  cases found : first.find hash with
  | some node => exact (agree node.height hash node found rfl).symm
  | none =>
    have rows := direct hash
    rw [found] at rows
    cases otherFound : second.find hash with
    | none => rfl
    | some other => simp [otherFound] at rows

theorem Shaped.childrenOf_eq (firstShaped : first.Shaped) (secondShaped : second.Shaped)
    (finalized : first.finalized = second.finalized) (find : first.find = second.find) :
    first.childrenOf = second.childrenOf := by
  funext parent
  ext child
  rw [firstShaped.children, secondShaped.children, find, finalized]

theorem Shaped.hashesAt_eq (firstShaped : first.Shaped) (secondShaped : second.Shaped)
    (find : first.find = second.find) : first.hashesAt = second.hashesAt := by
  funext height
  ext hash
  rw [firstShaped.heights, secondShaped.heights, find]

theorem Coherent.tips_eq (firstCoherent : first.Coherent) (secondCoherent : second.Coherent)
    (find : first.find = second.find) (children : first.childrenOf = second.childrenOf) :
    first.tips = second.tips := by
  ext hash
  rw [firstCoherent.tips, secondCoherent.tips]
  simp [isEligibleHeaderTip, hasEligibleHeaderChild, find, children]

theorem Coherent.view_eq (firstCoherent : first.Coherent) (secondCoherent : second.Coherent)
    (finalized : first.finalized = second.finalized) (preferred : first.preferred = second.preferred)
    (direct : SameDirect first.find second.find) : first = second := by
  have find := firstCoherent.find_eq secondCoherent finalized direct
  have children := firstCoherent.childrenOf_eq secondCoherent.toShaped finalized find
  have hashes := firstCoherent.hashesAt_eq secondCoherent.toShaped find
  have tips := firstCoherent.tips_eq secondCoherent find children
  cases first
  cases second
  simp_all

end HeaderGraphView

end Zakura.HeaderChain
