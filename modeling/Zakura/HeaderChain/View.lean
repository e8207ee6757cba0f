import Mathlib.Data.Prod.Lex
import Zakura.HeaderChain.Types

/-!
Read access to one retained header graph, the queries shared by the committed
store and the overlay, and the eligibility queue both run over their own tables.
-/

namespace Zakura.HeaderChain

open FiniteMap

structure HeaderGraphView where
  finalized : Frontier
  preferred : Option Frontier
  find : Hash → Option HeaderNode
  childrenOf : Hash → Finset Hash
  hashesAt : Nat → Finset Hash
  tips : Finset Hash

/-- The parent walk of `header_ancestor`. Parents sit one height lower, so the height
difference bounds the number of steps. -/
def ancestorWalk (find : Hash → Option HeaderNode) (height : Nat) :
    Nat → HeaderNode → Option Frontier
  | 0, node => if node.height ≤ height then some node.frontier else none
  | steps + 1, node =>
    if node.height ≤ height then some node.frontier
    else
      match find node.parentHash with
      | none => none
      | some parent => ancestorWalk find height steps parent

def headerAncestorIn (find : Hash → Option HeaderNode) (descendant : Hash) (height : Nat) :
    Except GraphError (Option Frontier) :=
  match find descendant with
  | none => .error (.unknownHeaderNode descendant)
  | some node =>
    if node.height < height then .error (.invalidAncestorHeight height node.height)
    else .ok (ancestorWalk find height (node.height - height) node)

def headerChainScoreIn (find : Hash → Option HeaderNode) (finalized : Frontier) (hash : Hash) :
    Except GraphError ChainScore :=
  match find finalized.hash with
  | none => .error (.unknownHeaderNode finalized.hash)
  | some anchor =>
    match find hash with
    | none => .error (.unknownHeaderNode hash)
    | some node =>
      match node.workCoordinate.suffixAfter anchor.workCoordinate with
      | .error error => .error (.work error)
      | .ok suffixWork => .ok { suffixWork := suffixWork, tipHash := hash }

def selectionRank (preferred : Option Frontier) (candidate : Frontier × ChainScore) :
    Nat ×ₗ Bool ×ₗ Hash :=
  toLex (candidate.2.suffixWork, toLex (decide (some candidate.1 = preferred), candidate.1.hash))

def selectBestLoop (find : Hash → Option HeaderNode) (anchor : WorkCoordinate)
    (preferred : Option Frontier) :
    List Hash → Option (Frontier × ChainScore) → Except GraphError (Option (Frontier × ChainScore))
  | [], best => .ok best
  | hash :: rest, best =>
    match find hash with
    | none => .error (.unknownHeaderNode hash)
    | some node =>
      match node.workCoordinate.suffixAfter anchor with
      | .error error => .error (.work error)
      | .ok suffixWork =>
        let candidate := (node.frontier, { suffixWork := suffixWork, tipHash := node.hash })
        let better := best.all fun current =>
          selectionRank preferred current < selectionRank preferred candidate
        selectBestLoop find anchor preferred rest (if better then some candidate else best)

def selectBestIn (find : Hash → Option HeaderNode) (finalized : Frontier)
    (preferred : Option Frontier) (tips : List Hash) : Except GraphError (Frontier × ChainScore) :=
  match find finalized.hash with
  | none => .error (.unknownHeaderNode finalized.hash)
  | some anchor =>
    match selectBestLoop find anchor.workCoordinate preferred tips none with
    | .error error => .error error
    | .ok none => .error (.unknownHeaderNode finalized.hash)
    | .ok (some best) => .ok best

namespace HeaderGraphView

def headerAncestor (view : HeaderGraphView) (descendant : Hash) (height : Nat) :
    Except GraphError (Option Frontier) :=
  headerAncestorIn view.find descendant height

def headerChainScore (view : HeaderGraphView) (hash : Hash) : Except GraphError ChainScore :=
  headerChainScoreIn view.find view.finalized hash

def selectBestHeaderChain (view : HeaderGraphView) : Except GraphError (Frontier × ChainScore) :=
  selectBestIn view.find view.finalized view.preferred (ascending view.tips)

def hasEligibleHeaderChild (view : HeaderGraphView) (hash : Hash) : Bool :=
  (ascending (view.childrenOf hash)).any fun child => (view.find child).any HeaderNode.isEligible

def isEligibleHeaderTip (view : HeaderGraphView) (hash : Hash) : Bool :=
  (view.find hash).any fun node => node.isEligible && !view.hasEligibleHeaderChild hash

end HeaderGraphView

def refreshEligibleHeaderTip (isTip : Hash → Bool) (tips : Finset Hash) (hash : Hash) :
    Finset Hash :=
  if isTip hash then insert hash (tips.erase hash) else tips.erase hash

def refreshEligibleHeaderTips (isTip : Hash → Bool) (affected : List Hash) (tips : Finset Hash) :
    Finset Hash :=
  affected.foldl (refreshEligibleHeaderTip isTip) tips

theorem mem_refreshEligibleHeaderTip (isTip : Hash → Bool) (tips : Finset Hash)
    (hash query : Hash) : query ∈ refreshEligibleHeaderTip isTip tips hash ↔
      if query = hash then isTip hash = true else query ∈ tips := by
  unfold refreshEligibleHeaderTip
  by_cases same : query = hash
  · split <;> simp_all
  · split <;> simp [same]

theorem mem_refreshEligibleHeaderTips (isTip : Hash → Bool) (affected : List Hash)
    (tips : Finset Hash) (query : Hash) : query ∈ refreshEligibleHeaderTips isTip affected tips ↔
      if query ∈ affected then isTip query = true else query ∈ tips := by
  induction affected generalizing tips with
  | nil => simp [refreshEligibleHeaderTips]
  | cons hash rest ih =>
    rw [refreshEligibleHeaderTips, List.foldl_cons]
    change query ∈ refreshEligibleHeaderTips isTip rest _ ↔ _
    rw [ih, mem_refreshEligibleHeaderTip]
    by_cases later : query ∈ rest
    · simp [later]
    · by_cases same : query = hash
      · simp [same]
      · simp [later, same]

theorem mem_refresh_ascending (isTip : Hash → Bool) (affected tips : Finset Hash) (query : Hash) :
    query ∈ refreshEligibleHeaderTips isTip (ascending affected) tips ↔
      if query ∈ affected then isTip query = true else query ∈ tips := by
  simp only [mem_refreshEligibleHeaderTips, mem_ascending]

def HeaderNode.ofHeader [HeaderHasher] (header : Header) (parent : HeaderNode) (height : Nat)
    (blockWork : Nat) (workCoordinate : WorkCoordinate) (validation : HeaderValidationState)
    (directReasons : Finset EligibilityReason) (body : BodyValidationState) : HeaderNode where
  header := header
  hash := header.hash
  parentHash := header.previousBlockHash
  height := height
  blockWork := blockWork
  workCoordinate := workCoordinate
  validation := validation
  eligibility := {
    directReasons := directReasons
    inheritedFrom := parent.inheritedByChildren header.previousBlockHash
  }
  bodyValidationState := body
  auxDeliveryIds := []

def sortRows (rows : List HeaderNode) : List HeaderNode :=
  rows.insertionSort fun first second =>
    toLex (first.height, first.hash) ≤ toLex (second.height, second.hash)

def rebasedCoordinate (finalized : Hash) (anchor : WorkCoordinate) (node : HeaderNode) :
    Except WorkCoordinateError WorkCoordinate :=
  match node.workCoordinate.suffixAfter anchor with
  | .error error => .error error
  | .ok suffix => .ok { originHash := finalized, cumulative := suffix }

def rebaseNode (finalized : Hash) (anchor : WorkCoordinate) (node : HeaderNode) : HeaderNode :=
  match rebasedCoordinate finalized anchor node with
  | .error _ => node
  | .ok coordinate => { node with workCoordinate := coordinate }

def firstRebaseError (finalized : Hash) (anchor : WorkCoordinate) :
    List HeaderNode → Option WorkCoordinateError
  | [] => none
  | node :: rest =>
    match rebasedCoordinate finalized anchor node with
    | .error error => some error
    | .ok _ => firstRebaseError finalized anchor rest

structure NodeTable (State : Type) where
  get : State → Hash → Option HeaderNode
  put : State → Hash → HeaderNode → State
  children : State → Hash → List Hash

variable {State : Type}

/-- The queue of `recompute_descendant_eligibility`. Child edges form a forest, so a queue that
starts with the children of one node visits each retained node at most once. -/
def recomputeLoop (table : NodeTable State) (stopEarly : Bool) :
    Nat → State → Finset Hash → List Hash → Except GraphError (Finset Hash) × State
  | _, state, affected, [] => (.ok affected, state)
  | 0, state, affected, _ :: _ => (.ok affected, state)
  | fuel + 1, state, affected, hash :: queue =>
    match table.get state hash with
    | none => (.error (.unknownHeaderNode hash), state)
    | some node =>
      match table.get state node.parentHash with
      | none => (.error (.unknownHeaderNode node.parentHash), state)
      | some parent =>
        let inherited := parent.inheritedByChildren node.parentHash
        if stopEarly ∧ node.eligibility.inheritedFrom = inherited then
          recomputeLoop table stopEarly fuel state (insert node.parentHash affected) queue
        else
          let updated := table.put state hash (node.withInheritedFrom inherited)
          recomputeLoop table stopEarly fuel updated
            (insert node.parentHash (insert hash affected))
            (queue ++ table.children updated hash)

def HeaderNode.directRow (node : HeaderNode) : HeaderNode :=
  node.withInheritedFrom none

@[simp] theorem HeaderNode.inheritedFrom_withInheritedFrom (node : HeaderNode)
    (inherited : Option Hash) :
    (node.withInheritedFrom inherited).eligibility.inheritedFrom = inherited := rfl

variable {first second : HeaderNode}

theorem HeaderNode.ext_directRow (direct : first.directRow = second.directRow)
    (inherited : first.eligibility.inheritedFrom = second.eligibility.inheritedFrom) :
    first = second := by
  have rebuild (node : HeaderNode) :
      node.directRow.withInheritedFrom node.eligibility.inheritedFrom = node := rfl
  rw [← rebuild first, ← rebuild second, direct, inherited]

theorem HeaderNode.isEligible_iff (node : HeaderNode) : node.isEligible = true ↔
      node.directRow.isEligible = true ∧ node.eligibility.inheritedFrom = none := by
  rw [node.isEligible_eq_true, node.directRow.isEligible_eq_true]
  simp only [HeaderNode.directRow, HeaderNode.withInheritedFrom]
  tauto

structure SameLinks (first second : HeaderNode) : Prop where
  hash : first.hash = second.hash
  parentHash : first.parentHash = second.parentHash
  height : first.height = second.height

theorem SameLinks.of_directRow (direct : first.directRow = second.directRow) :
    SameLinks first second where
  hash := (congrArg HeaderNode.hash direct :)
  parentHash := (congrArg HeaderNode.parentHash direct :)
  height := (congrArg HeaderNode.height direct :)

theorem HeaderNode.body_of_directRow (direct : first.directRow = second.directRow) :
    first.bodyValidationState = second.bodyValidationState :=
  (congrArg HeaderNode.bodyValidationState direct :)

theorem firstRebaseError_eq_none (finalized : Hash) (coordinate : WorkCoordinate)
    (nodes : List HeaderNode)
    (rebases : ∀ node ∈ nodes, ∃ next, rebasedCoordinate finalized coordinate node = .ok next) :
    firstRebaseError finalized coordinate nodes = none := by
  induction nodes with
  | nil => rfl
  | cons node rest ih =>
    obtain ⟨_, rebased⟩ := rebases node (by simp)
    simp only [firstRebaseError, rebased]
    exact ih fun other member => rebases other (by simp [member])

section

variable (finalized : Hash) (coordinate : WorkCoordinate) (node : HeaderNode)
include finalized coordinate node

theorem rebaseNode_links : SameLinks (rebaseNode finalized coordinate node) node := by
  unfold rebaseNode
  split <;> exact ⟨rfl, rfl, rfl⟩

theorem rebaseNode_eligibility :
    (rebaseNode finalized coordinate node).eligibility = node.eligibility := by
  unfold rebaseNode
  split <;> rfl

theorem rebaseNode_isEligible :
    (rebaseNode finalized coordinate node).isEligible = node.isEligible := by
  unfold rebaseNode
  split <;> rfl

theorem rebaseNode_body :
    (rebaseNode finalized coordinate node).bodyValidationState = node.bodyValidationState := by
  unfold rebaseNode
  split <;> rfl

theorem rebaseNode_inheritedByChildren (hash : Hash) :
    (rebaseNode finalized coordinate node).inheritedByChildren hash =
      node.inheritedByChildren hash := by
  simp [HeaderNode.inheritedByChildren, rebaseNode_isEligible]

end

end Zakura.HeaderChain
