import Zakura.Lib.FiniteMap

/-!
Header rows, frontiers, exact work, and the error values of the header graph.
Heights and 256-bit quantities are naturals; the checked operations carry the
bounds of the source's machine types.
-/

namespace Zakura.HeaderChain

/-- Thirty-two raw bytes, first byte most significant, so that the order is raw byte order. -/
structure Hash where
  bytes : BitVec 256
deriving Repr

theorem Hash.toNat_injective : Function.Injective fun hash : Hash => hash.bytes.toNat := by
  rintro ⟨_⟩ ⟨_⟩ same
  exact congrArg Hash.mk (BitVec.eq_of_toNat_eq same)

instance : LinearOrder Hash :=
  LinearOrder.lift' (fun hash : Hash => hash.bytes.toNat) Hash.toNat_injective

instance : LawfulBEq Hash := inferInstance

structure EvidenceId where
  digest : BitVec 256
deriving DecidableEq, Repr

structure OperatorInvalidationId where
  bytes : BitVec 128
deriving DecidableEq, Repr

structure BranchId where
  anchorHash : Hash
  targetTipHash : Hash
deriving DecidableEq, Repr

structure HeaderWorkAuthority where
  headerGeneration : Nat
  branch : BranchId
deriving DecidableEq, Repr

structure BodyWorkAuthority where
  header : HeaderWorkAuthority
  verifiedGeneration : Nat
  bodyWorkEpoch : Nat
deriving DecidableEq, Repr

/-- The exact owner of body-affecting work. Request identifiers are nonzero. -/
structure BodyWorkOwner where
  authority : BodyWorkAuthority
  sessionId : Nat
  requestId : Nat
deriving DecidableEq, Repr

def BodyWorkAuthority.bind (authority : BodyWorkAuthority) (sessionId requestId : Nat) :
    BodyWorkOwner :=
  ⟨authority, sessionId, requestId⟩

def Height.maximum : Nat := 2 ^ 31 - 1

def Height.next (height : Nat) : Option Nat :=
  if height + 1 ≤ Height.maximum then some (height + 1) else none

def Height.previous (height : Nat) : Option Nat :=
  if 0 < height ∧ height - 1 ≤ Height.maximum then some (height - 1) else none

theorem Height.next_eq_some {height next : Nat} :
    Height.next height = some next ↔ next = height + 1 ∧ height + 1 ≤ Height.maximum := by
  unfold Height.next
  split
  · simp_all [eq_comm]
  · simp_all

def u256Bound : Nat := 2 ^ 256

structure CompactDifficulty where
  bits : BitVec 32
deriving DecidableEq, Repr

def CompactDifficulty.signBit : Nat := 2 ^ 23

def CompactDifficulty.unsignedMantissaMask : Nat := 2 ^ 23 - 1

/-- Mantissa and exponent after moving overflowing bytes, or none on overflow. -/
def CompactDifficulty.normalise (mantissa : Nat) (exponent : Int) : Option (Nat × Nat) :=
  if 32 ≤ exponent then none
  else if exponent = 31 then
    if 255 < mantissa then none else some (mantissa <<< 16, 29)
  else if exponent = 30 then
    if 65535 < mantissa then none else some (mantissa <<< 8, 29)
  else if exponent < 0 then some (mantissa >>> (exponent.natAbs * 8), 0)
  else some (mantissa, exponent.toNat)

def CompactDifficulty.toExpanded (compact : CompactDifficulty) : Option Nat :=
  let bits := compact.bits.toNat
  if bits &&& signBit = signBit then none
  else
    match normalise (bits &&& unsignedMantissaMask) ((bits >>> 24 : Nat) - 3 : Int) with
    | none => none
    | some (mantissa, exponent) =>
      let result := mantissa * 256 ^ exponent
      if result = 0 then none else some result

/-- Block work `2^256 / (target + 1)`, as the source computes it inside 256 bits. -/
def workOfExpanded (expanded : Nat) : Option Nat :=
  if expanded = 0 then none
  else if expanded = u256Bound - 1 then some 1
  else some ((u256Bound - 1 - expanded) / (expanded + 1) + 1)

def CompactDifficulty.toWork (compact : CompactDifficulty) : Option Nat :=
  compact.toExpanded.bind workOfExpanded

inductive Solution
  | common (bytes : BitVec (1344 * 8))
  | regtest (bytes : BitVec (36 * 8))
deriving DecidableEq, Repr

structure Header where
  version : BitVec 32
  previousBlockHash : Hash
  merkleRoot : BitVec 256
  commitmentBytes : BitVec 256
  time : Int
  difficultyThreshold : CompactDifficulty
  nonce : BitVec 256
  solution : Solution
deriving DecidableEq, Repr

/-- The double SHA-256 of the serialized header, computed outside this source. -/
class HeaderHasher where
  hashHeader : Header → Hash

def Header.hash [HeaderHasher] (header : Header) : Hash :=
  HeaderHasher.hashHeader header

structure Frontier where
  height : Nat
  hash : Hash
deriving DecidableEq, Repr

theorem Frontier.ext {first second : Frontier} (height : first.height = second.height)
    (hash : first.hash = second.hash) : first = second := by
  cases first
  cases second
  simp_all

inductive WorkCoordinateError
  | originMismatch (anchor tip : Hash)
  | overflow
  | underflow
deriving DecidableEq, Repr

structure WorkCoordinate where
  originHash : Hash
  cumulative : Nat
deriving DecidableEq, Repr

def WorkCoordinate.checkedAdd (coordinate : WorkCoordinate) (work : Nat) :
    Except WorkCoordinateError WorkCoordinate :=
  if coordinate.cumulative + work < u256Bound then
    .ok { coordinate with cumulative := coordinate.cumulative + work }
  else .error .overflow

def WorkCoordinate.suffixAfter (tip anchor : WorkCoordinate) : Except WorkCoordinateError Nat :=
  if tip.originHash ≠ anchor.originHash then
    .error (.originMismatch anchor.originHash tip.originHash)
  else if anchor.cumulative ≤ tip.cumulative then .ok (tip.cumulative - anchor.cumulative)
  else .error .underflow

theorem WorkCoordinate.checkedAdd_eq_ok {coordinate next : WorkCoordinate} {work : Nat} :
    coordinate.checkedAdd work = .ok next ↔ next.originHash = coordinate.originHash ∧
        next.cumulative = coordinate.cumulative + work ∧
        coordinate.cumulative + work < u256Bound := by
  unfold checkedAdd
  obtain ⟨_, _⟩ := next
  split <;> simp_all [eq_comm, and_comm]

theorem WorkCoordinate.suffixAfter_eq_ok {tip anchor : WorkCoordinate} {suffix : Nat} :
    tip.suffixAfter anchor = .ok suffix ↔
      tip.originHash = anchor.originHash ∧ tip.cumulative = anchor.cumulative + suffix := by
  unfold suffixAfter
  split
  · simp_all
  split
  · simp only [Except.ok.injEq]
    constructor
    · rintro rfl
      exact ⟨by simp_all, by omega⟩
    · rintro ⟨_, sum⟩
      omega
  · simp only [reduceCtorEq, false_iff, not_and]
    intro _ sum
    omega

/-- Suffix work after a shared anchor, then the raw tip hash. -/
structure ChainScore where
  suffixWork : Nat
  tipHash : Hash
deriving DecidableEq, Repr

inductive HeaderValidationState
  | valid
  | deferredUntil (time : Int)
deriving DecidableEq, Repr

inductive EligibilityReason
  | settledUpgradeConflict (height : Nat) (expected : Hash)
  | checkpointConflict (height : Nat) (expected : Hash)
  | finalityConflict (finalized : Frontier)
  | consensusBodyInvalid (evidence : EvidenceId) (rule : String)
  | operatorInvalid (id : OperatorInvalidationId) (reasonDigest : BitVec 256)
      (evidence : EvidenceId)
deriving DecidableEq, Repr

structure BodyUnavailableSummary where
  startedAt : Int
  attempts : Nat
  suppliers : Nat
  supplierSetDigest : BitVec 256
  alarmed : Bool
  nextProbeAt : Int
deriving DecidableEq, Repr

inductive BodyValidationState
  | unknown
  | commitmentMatched
  | verified (evidence : EvidenceId)
  | consensusInvalid (evidence : EvidenceId) (rule : String)
  | unavailable (summary : BodyUnavailableSummary)
deriving DecidableEq, Repr

def BodyValidationState.isConsensusInvalid : BodyValidationState → Bool
  | .consensusInvalid _ _ => true
  | _ => false

def maxDirectEligibilityReasons : Nat := 16

structure EligibilityState where
  directReasons : Finset EligibilityReason
  inheritedFrom : Option Hash
deriving DecidableEq

def EligibilityState.default : EligibilityState where
  directReasons := ∅
  inheritedFrom := none

def EligibilityState.isEligible (eligibility : EligibilityState)
    (validation : HeaderValidationState) : Bool :=
  validation = .valid && eligibility.directReasons = ∅ && eligibility.inheritedFrom.isNone

inductive HeaderNodeInvariant
  | canonicalBlockWork
  | finalizedFrontierHeight
  | canonicalHeaderHash
  | canonicalParentHash
  | workOrigin
  | parentHeight
  | cumulativeWork
  | immutableFields
  | workRebaseOrigin
  | workRebaseCoordinate
  | derivedHeaderState
deriving DecidableEq, Repr

inductive GraphError
  | staleDelta (currentRevision deltaBaseRevision : Nat)
  | revisionExhausted
  | anchorHashMismatch (expected actual : Hash)
  | unknownParent (header parent : Hash)
  | heightOverflow (parent : Hash)
  | conflictingDuplicate (hash : Hash)
  | duplicateHeaderNode (hash : Hash)
  | directEligibilityReasonLimit (header : Hash) (limit : Nat)
  | invalidHeaderNode (header : Hash) (violated : HeaderNodeInvariant)
  | unknownHeaderNode (hash : Hash)
  | ineligibleFinalizedFrontier (hash : Hash)
  | finalizedFrontierNotDescendant (current candidate : Hash)
  | headerNodeHasChildren (hash : Hash)
  | permanentBodyInvalidity (hash : Hash)
  | invalidAncestorHeight (ancestor descendant : Nat)
  | work (error : WorkCoordinateError)
deriving DecidableEq, Repr

def EligibilityState.tryInsertDirectReason (eligibility : EligibilityState) (header : Hash)
    (reason : EligibilityReason) : Except GraphError (Bool × EligibilityState) :=
  if reason ∈ eligibility.directReasons then .ok (false, eligibility)
  else if maxDirectEligibilityReasons ≤ eligibility.directReasons.card then
    .error (.directEligibilityReasonLimit header maxDirectEligibilityReasons)
  else .ok (true, { eligibility with directReasons := insert reason eligibility.directReasons })

def EligibilityReason.isOperatorInvalidation (id : OperatorInvalidationId)
    (evidence : Option EvidenceId) : EligibilityReason → Bool
  | .operatorInvalid existing _ existingEvidence =>
    existing = id && some existingEvidence = evidence
  | _ => false

/-- The direct reasons that removing one operator invalidation retains. -/
def EligibilityState.withoutOperatorInvalidation (eligibility : EligibilityState)
    (id : OperatorInvalidationId) (evidence : Option EvidenceId) : Finset EligibilityReason :=
  eligibility.directReasons.filter fun reason => !reason.isOperatorInvalidation id evidence

structure HeaderNode where
  header : Header
  hash : Hash
  parentHash : Hash
  height : Nat
  blockWork : Nat
  workCoordinate : WorkCoordinate
  validation : HeaderValidationState
  eligibility : EligibilityState
  bodyValidationState : BodyValidationState
  auxDeliveryIds : List EvidenceId
deriving DecidableEq

def HeaderNode.isEligible (node : HeaderNode) : Bool :=
  node.eligibility.isEligible node.validation && !node.bodyValidationState.isConsensusInvalid

theorem HeaderNode.isEligible_eq_true (node : HeaderNode) : node.isEligible = true ↔
      node.validation = .valid ∧ node.eligibility.directReasons = ∅ ∧
        node.eligibility.inheritedFrom = none ∧
        node.bodyValidationState.isConsensusInvalid = false := by
  simp [HeaderNode.isEligible, EligibilityState.isEligible, and_assoc]

def HeaderNode.frontier (node : HeaderNode) : Frontier where
  height := node.height
  hash := node.hash

def HeaderNode.withInheritedFrom (node : HeaderNode) (inheritedFrom : Option Hash) : HeaderNode :=
  { node with eligibility := { node.eligibility with inheritedFrom := inheritedFrom } }

def HeaderNode.withEligibility (node : HeaderNode) (eligibility : EligibilityState) : HeaderNode :=
  { node with eligibility := eligibility }

def HeaderNode.withDirectReasons (node : HeaderNode) (reasons : Finset EligibilityReason) :
    HeaderNode :=
  node.withEligibility { node.eligibility with directReasons := reasons }

def HeaderNode.withValidation (node : HeaderNode) (validation : HeaderValidationState) :
    HeaderNode :=
  { node with validation := validation }

def HeaderNode.withBody (node : HeaderNode) (body : BodyValidationState) : HeaderNode :=
  { node with bodyValidationState := body }

def HeaderNode.withDelivery (node : HeaderNode) (deliveryId : EvidenceId) : HeaderNode :=
  { node with auxDeliveryIds := node.auxDeliveryIds ++ [deliveryId] }

/-- What a child inherits: its parent's hash exactly when the parent is excluded. -/
def HeaderNode.inheritedByChildren (node : HeaderNode) (hash : Hash) : Option Hash :=
  if node.isEligible then none else some hash

/-- Permanent consensus-invalid body evidence, kept after the header is evicted. -/
structure ConsensusInvalidBodyTombstone where
  hash : Hash
  height : Nat
  evidence : EvidenceId
  rule : String
deriving DecidableEq, Repr

def ConsensusInvalidBodyTombstone.bodyState (tombstone : ConsensusInvalidBodyTombstone) :
    BodyValidationState :=
  .consensusInvalid tombstone.evidence tombstone.rule

/-- A body carries the verdict of its tombstone and no other permanent verdict. -/
def VerdictAgrees (body : BodyValidationState) : Option ConsensusInvalidBodyTombstone → Prop
  | some row => body = row.bodyState
  | none => body.isConsensusInvalid = false

/-- The tombstone that a new body state leaves behind, if it is a permanent verdict. -/
def BodyValidationState.tombstone (body : BodyValidationState) (hash : Hash) (height : Nat) :
    Option ConsensusInvalidBodyTombstone :=
  match body with
  | .consensusInvalid evidence rule =>
    some { hash := hash, height := height, evidence := evidence, rule := rule }
  | _ => none

/-- The tombstones after a body state was accepted for a retained header. -/
def recordTombstone (tombstones : FiniteMap Hash ConsensusInvalidBodyTombstone) (hash : Hash)
    (height : Nat) (body : BodyValidationState) : FiniteMap Hash ConsensusInvalidBodyTombstone :=
  match body.tombstone hash height with
  | none => tombstones
  | some row => tombstones.insert hash row

theorem lookup_recordTombstone (tombstones : FiniteMap Hash ConsensusInvalidBodyTombstone)
    (hash : Hash) (height : Nat) (body : BodyValidationState) (query : Hash) :
    (recordTombstone tombstones hash height body).lookup query =
      if query = hash ∧ (body.tombstone hash height).isSome then body.tombstone hash height
      else tombstones.lookup query := by
  simp only [recordTombstone]
  cases verdict : body.tombstone hash height with
  | none => simp
  | some row =>
    rw [FiniteMap.lookup_insert_ite]
    simp

theorem tombstone_eq_some {body : BodyValidationState} {hash : Hash} {height : Nat}
    {row : ConsensusInvalidBodyTombstone} (verdict : body.tombstone hash height = some row) :
    row.height = height ∧ body.isConsensusInvalid = true ∧ row.bodyState = body ∧
      row.hash = hash := by
  cases body with
  | consensusInvalid evidence rule =>
    simp only [BodyValidationState.tombstone, Option.some.injEq] at verdict
    subst verdict
    exact ⟨rfl, rfl, rfl, rfl⟩
  | _ => simp [BodyValidationState.tombstone] at verdict

inductive InsertResult
  | inserted (frontier : Frontier)
  | alreadyPresent (frontier : Frontier)
deriving DecidableEq, Repr

end Zakura.HeaderChain
