import Zakura.HeaderChain.Types
import Zakura.Lib.Checked
import Zakura.Lib.Totals

/-!
The logical owner of block-sync download work: pending heights, in-flight heights with
their owners, the download floor and the ledger of reserved bytes. A failure of the
checked ledger arithmetic keeps the last values and latches a fault.
-/

namespace Zakura.BlockSync

open Checked FiniteMap

open HeaderChain (Hash BodyWorkAuthority BodyWorkOwner)

inductive BlockSizeEstimate
  | confirmed (size : Nat)
  | advertised (size : Nat)
  | unknown
deriving DecidableEq

/-- A request reservation for one height, which is released once. -/
inductive BlockBudgetLedger
  | reserved (bytes : Nat)
  | released
deriving DecidableEq

namespace BlockBudgetLedger

def reservedCharge : BlockBudgetLedger → Nat
  | .reserved bytes => bytes
  | .released => 0

def isReserved : BlockBudgetLedger → Bool
  | .reserved _ => true
  | .released => false

end BlockBudgetLedger

structure WorkItem where
  scope : BodyWorkAuthority
  owner : Option BodyWorkOwner
  provisional : Bool
  hash : Hash
  estimatedBytes : Nat
  observedBytes : Nat
  retryEstimatedBytes : Option Nat
  retryAfterTip : Option Nat
  budget : BlockBudgetLedger
  answeredElsewhere : Bool
deriving DecidableEq

namespace WorkItem

def charge (item : WorkItem) : Nat := item.budget.reservedCharge

def release (item : WorkItem) : WorkItem := { item with budget := .released }

def takeRetryEstimate (item : WorkItem) : WorkItem :=
  match item.retryEstimatedBytes with
  | some estimate =>
    { item with
      retryEstimatedBytes := none
      estimatedBytes := max estimate item.observedBytes }
  | none => item

end WorkItem

structure WorkWake where
  available : Bool
  revocation : Bool
deriving DecidableEq

structure WorkDelta where
  releasedBytes : Nat
  wake : WorkWake
deriving DecidableEq

structure WorkReturnOutcome where
  releasedBytes : Nat
  returnedCount : Nat
  committedCount : Nat
  alreadyPendingCount : Nat
  releasedCount : Nat
  missingCount : Nat
  minHeight : Option Nat
  maxHeight : Option Nat
deriving DecidableEq

def WorkReturnOutcome.empty : WorkReturnOutcome := ⟨0, 0, 0, 0, 0, 0, none, none⟩

structure ReservedTally where
  bytes : Nat
  items : Nat
deriving DecidableEq

namespace ReservedTally

def checkedAdd (charge : Nat) (tally : ReservedTally) : Option ReservedTally :=
  if charge = 0 then some tally
  else do
    let bytes ← add tally.bytes charge
    let items ← add tally.items 1
    return ⟨bytes, items⟩

def checkedSub (charge : Nat) (tally : ReservedTally) : Option ReservedTally :=
  if charge = 0 then some tally
  else do
    let bytes ← sub tally.bytes charge
    let items ← sub tally.items 1
    return ⟨bytes, items⟩

end ReservedTally

structure LedgerFault where
  operation : String
  total : Nat
  amount : Nat
deriving DecidableEq

def defaultBsSizeFloorBytes : Nat := 1024

def maxBlockBytes : Nat := 2000000

def heightLimit : Nat := 2 ^ 32

/-- A body-size estimate, clamped between the floor and the largest block. -/
def estimateBytesWith (estimate : BlockSizeEstimate) (floor : Nat) : Nat :=
  let hinted :=
    match estimate with
    | .confirmed size => size
    | .advertised size => size
    | .unknown => maxBlockBytes
  min (max hinted floor) maxBlockBytes

structure WorkQueueState where
  pending : FiniteMap Nat WorkItem
  inFlight : FiniteMap Nat WorkItem
  floor : Nat
  currentAuthority : Option BodyWorkAuthority
  floorEstimateBytes : Nat
  reservedBytes : Nat
  inFlightReserved : ReservedTally
  sessionReserved : FiniteMap Nat Nat
  ledgerFault : Option LedgerFault

namespace WorkQueueState

def new (floor : Nat) : WorkQueueState :=
  ⟨∅, ∅, floor, none, defaultBsSizeFloorBytes, 0, ⟨0, 0⟩, ∅, none⟩

def putPending (height : Nat) (item : WorkItem) (state : WorkQueueState) : WorkQueueState :=
  { state with pending := state.pending.insert height item }

def putInFlight (height : Nat) (item : WorkItem) (state : WorkQueueState) : WorkQueueState :=
  { state with inFlight := state.inFlight.insert height item }

def removePending (height : Nat) (state : WorkQueueState) : WorkQueueState :=
  { state with pending := state.pending.erase height }

def removeInFlight (height : Nat) (state : WorkQueueState) : WorkQueueState :=
  { state with inFlight := state.inFlight.erase height }

def noteFault (operation : String) (total amount : Nat) (state : WorkQueueState) :
    WorkQueueState :=
  { state with ledgerFault := some (state.ledgerFault.getD ⟨operation, total, amount⟩) }

/-- Add to the running total of a transition. Overflow keeps the total. -/
def addToTotal (total amount : Nat) (state : WorkQueueState) : Nat × WorkQueueState :=
  match add total amount with
  | some sum => (sum, state)
  | none => (total, state.noteFault "transition total" total amount)

def chargeLedger (bytes : Nat) (state : WorkQueueState) : WorkQueueState :=
  match add state.reservedBytes bytes with
  | some total => { state with reservedBytes := total }
  | none => state.noteFault "ledger charge" state.reservedBytes bytes

def settleLedger (bytes : Nat) (state : WorkQueueState) : WorkQueueState :=
  match sub state.reservedBytes bytes with
  | some total => { state with reservedBytes := total }
  | none => state.noteFault "ledger settlement" state.reservedBytes bytes

def heldBy (session : Nat) (state : WorkQueueState) : Nat :=
  (state.sessionReserved.lookup session).getD 0

def chargeTally (charge : Nat) (state : WorkQueueState) : WorkQueueState :=
  match state.inFlightReserved.checkedAdd charge with
  | some tally => { state with inFlightReserved := tally }
  | none => state.noteFault "in-flight charge" state.inFlightReserved.bytes charge

def chargeSession (session charge : Nat) (state : WorkQueueState) : WorkQueueState :=
  match add (state.heldBy session) charge with
  | some total => { state with sessionReserved := state.sessionReserved.insert session total }
  | none => state.noteFault "session charge" (state.heldBy session) charge

def chargeInFlight (owner : Option BodyWorkOwner) (charge : Nat) (state : WorkQueueState) :
    WorkQueueState :=
  match owner.filter fun _ => 0 < charge with
  | none => state.chargeTally charge
  | some owner => (state.chargeTally charge).chargeSession owner.sessionId charge

def settleTally (charge : Nat) (state : WorkQueueState) : WorkQueueState :=
  match state.inFlightReserved.checkedSub charge with
  | some tally => { state with inFlightReserved := tally }
  | none => state.noteFault "in-flight settlement" state.inFlightReserved.bytes charge

def settleSession (session charge : Nat) (state : WorkQueueState) : WorkQueueState :=
  match sub (state.heldBy session) charge with
  | some 0 => { state with sessionReserved := state.sessionReserved.erase session }
  | some total => { state with sessionReserved := state.sessionReserved.insert session total }
  | none => state.noteFault "session settlement" (state.heldBy session) charge

def settleInFlight (owner : Option BodyWorkOwner) (charge : Nat) (state : WorkQueueState) :
    WorkQueueState :=
  match owner.filter fun _ => 0 < charge with
  | none => state.settleTally charge
  | some owner => (state.settleTally charge).settleSession owner.sessionId charge

def estimateBytes (estimate : BlockSizeEstimate) (state : WorkQueueState) : Nat :=
  estimateBytesWith estimate state.floorEstimateBytes

def newItem (scope : BodyWorkAuthority) (hash : Hash) (estimatedBytes : Nat) : WorkItem where
  scope := scope
  owner := none
  provisional := false
  hash := hash
  estimatedBytes := estimatedBytes
  observedBytes := 0
  retryEstimatedBytes := none
  retryAfterTip := none
  budget := .released
  answeredElsewhere := false

def extendOne (scope : BodyWorkAuthority) (entry : Nat × Hash × BlockSizeEstimate)
    (inserted : Nat) (state : WorkQueueState) : Nat × WorkQueueState :=
  let (height, hash, size) := entry
  if height ≤ state.floor then (inserted, state)
  else
    let estimatedBytes := state.estimateBytes size
    match state.pending.lookup height with
    | some item =>
      if item.hash = hash ∧ item.scope = scope ∧ size ≠ .unknown then
        (inserted, state.putPending height
          { item with estimatedBytes := max estimatedBytes item.observedBytes })
      else (inserted, state)
    | none =>
      if (state.inFlight.lookup height).isSome then (inserted, state)
      else (inserted + 1, state.putPending height (newItem scope hash estimatedBytes))

def extend (scope : BodyWorkAuthority) (items : List (Nat × Hash × BlockSizeEstimate))
    (state : WorkQueueState) : (Nat × WorkWake) × WorkQueueState :=
  let (inserted, next) := items.foldl
    (fun current entry => extendOne scope entry current.1 current.2)
    (0, { state with currentAuthority := some scope })
  ((inserted, ⟨0 < inserted, false⟩), next)

def refreshOne (scope : BodyWorkAuthority) (entry : Nat × Hash × BlockSizeEstimate)
    (changed : Bool) (state : WorkQueueState) : Bool × WorkQueueState :=
  let (height, hash, size) := entry
  if size = .unknown then (changed, state)
  else
    let estimated := state.estimateBytes size
    match state.pending.lookup height with
    | some item =>
      if item.scope = scope ∧ item.hash = hash then
        let estimated := max estimated item.observedBytes
        (changed || item.estimatedBytes ≠ estimated,
          state.putPending height { item with estimatedBytes := estimated })
      else (changed, state)
    | none =>
      match state.inFlight.lookup height with
      | some item =>
        if item.scope.bodyWorkEpoch = scope.bodyWorkEpoch ∧ item.hash = hash then
          (changed, state.putInFlight height
            { item with retryEstimatedBytes := some (max estimated item.observedBytes) })
        else (changed, state)
      | none => (changed, state)

def refreshSizeEstimates (scope : BodyWorkAuthority)
    (items : List (Nat × Hash × BlockSizeEstimate)) (state : WorkQueueState) :
    WorkWake × WorkQueueState :=
  let (changed, next) := items.foldl
    (fun current entry => refreshOne scope entry current.1 current.2) (false, state)
  (⟨changed, false⟩, next)

def refreshAuthority (authority : BodyWorkAuthority) (state : WorkQueueState) :
    WorkWake × WorkQueueState :=
  (⟨true, false⟩, { state with
    currentAuthority := some authority
    pending := state.pending.mapValues fun _ item => { item with scope := authority } })

def entriesIn (low high : Nat) (map : FiniteMap Nat WorkItem) : List (Nat × WorkItem) :=
  ((ascending map.keys).filter fun height => low ≤ height ∧ height ≤ high).filterMap
    fun height => (map.lookup height).map fun item => (height, item)

/-- What the loop over the pending entries has taken so far. -/
structure Taking where
  taken : List (Nat × WorkItem)
  estimatedBytes : Nat
  nextExpected : Option Nat
  scope : Option BodyWorkAuthority

/-- Take the next entries of a contiguous run within the count and byte limits. -/
def takeLoop (floor maxCount maxEstimatedBytes : Nat) :
    List (Nat × WorkItem) → Taking → List (Nat × WorkItem)
  | [], current => current.taken
  | (height, item) :: rest, current =>
    if item.retryAfterTip.any fun tip => floor ≤ tip then current.taken
    else if current.scope.any fun scope => scope ≠ item.scope then current.taken
    else if current.nextExpected.any fun expected => height ≠ expected then current.taken
    else
      let nextEstimatedBytes := saturatingAdd current.estimatedBytes item.estimatedBytes
      if current.taken ≠ [] ∧ maxEstimatedBytes < nextEstimatedBytes then current.taken
      else
        let taken := current.taken ++ [(height, item)]
        if maxCount ≤ taken.length then taken
        else if height + 1 < heightLimit then
          takeLoop floor maxCount maxEstimatedBytes rest
            ⟨taken, nextEstimatedBytes, some (height + 1), some item.scope⟩
        else taken

def claimItem (authority : Option BodyWorkAuthority) (sessionId requestId : Nat) (item : WorkItem) :
    WorkItem :=
  let scope := authority.getD item.scope
  { item with
    scope := scope
    owner := some (scope.bind sessionId requestId)
    provisional := true
    answeredElsewhere := false }

def moveInFlight (entry : Nat × WorkItem) (state : WorkQueueState) : WorkQueueState :=
  ((state.removePending entry.1).chargeInFlight entry.2.owner entry.2.charge).putInFlight
    entry.1 entry.2

def takeBudgeted (low high maxCount maxEstimatedBytes sessionId requestId : Nat)
    (state : WorkQueueState) : List (Nat × WorkItem) × WorkQueueState :=
  if maxCount = 0 ∨ high < low then ([], state)
  else
    let run := takeLoop state.floor maxCount maxEstimatedBytes (entriesIn low high state.pending)
      ⟨[], 0, none, none⟩
    let taken := run.map fun entry =>
      (entry.1, claimItem state.currentAuthority sessionId requestId entry.2)
    (taken, taken.foldl (fun current entry => current.moveInFlight entry) state)

def returnUnpublishedOne (entry : Nat × WorkItem) (state : WorkQueueState) : WorkQueueState :=
  match state.inFlight.lookup entry.1 with
  | none => state
  | some item =>
    if item.owner = entry.2.owner ∧ item.owner.isSome ∧ item.provisional then
      ((state.removeInFlight entry.1).settleInFlight item.owner item.charge).putPending entry.1
        ({ item with owner := none, provisional := false } : WorkItem).takeRetryEstimate
    else state

def returnUnpublished (items : List (Nat × WorkItem)) (state : WorkQueueState) : WorkQueueState :=
  items.foldl (fun current entry => current.returnUnpublishedOne entry) state

def isUnpublishedClaim (owner : BodyWorkOwner) (items : List (Nat × WorkItem))
    (state : WorkQueueState) : Bool :=
  items ≠ [] && items.all fun entry =>
    (state.inFlight.lookup entry.1).any fun item =>
      item.owner = some owner && item.hash = entry.2.hash && item.provisional

/-- Transfer the estimates of a claim into the ledger, up to the first missing item. -/
def publishLoop : List (Nat × WorkItem) → Nat → WorkQueueState → (Nat × Bool) × WorkQueueState
  | [], transferred, state => ((transferred, true), state)
  | (height, _) :: rest, transferred, state =>
    match state.inFlight.lookup height with
    | none => ((transferred, false), state)
    | some item =>
      let published := state.putInFlight height
        { item with budget := .reserved item.estimatedBytes, provisional := false }
      let charged := published.chargeInFlight item.owner item.estimatedBytes
      let (total, next) := charged.addToTotal transferred item.estimatedBytes
      publishLoop rest total next

def publishClaim (items : List (Nat × WorkItem)) (state : WorkQueueState) :
    Option Nat × WorkQueueState :=
  let ((transferred, complete), next) := publishLoop items 0 state
  (if complete then some transferred else none, next.chargeLedger transferred)

def endReservationAtReceipt (owner : BodyWorkOwner) (height : Nat) (answeredElsewhere : Bool)
    (state : WorkQueueState) : Option Nat × WorkQueueState :=
  match state.inFlight.lookup height with
  | none => (none, state)
  | some item =>
    if item.owner ≠ some owner ∨ item.budget.isReserved = false then (none, state)
    else
      let released := state.putInFlight height
        { item.release with answeredElsewhere := answeredElsewhere }
      (some item.charge, (released.settleLedger item.charge).settleInFlight (some owner)
        item.charge)

/-- End the reservation of the published request that holds a height for a hash. -/
def endCompetingReservationAtReceipt (height : Nat) (hash : Hash) (state : WorkQueueState) :
    Option (BodyWorkOwner × Nat) × WorkQueueState :=
  match state.inFlight.lookup height with
  | none => (none, state)
  | some item =>
    if item.provisional = false ∧ item.hash = hash then
      match item.owner with
      | none => (none, state)
      | some owner =>
        let (charge, next) := state.endReservationAtReceipt owner height true
        (charge.map fun charge => (owner, charge), next)
    else (none, state)

/-- Return a received height, which waits for verified progress before it is retried. -/
def deferReceived (owner : BodyWorkOwner) (height : Nat) (hash : Hash) (bytes verifiedTip : Nat)
    (state : WorkQueueState) : Option WorkWake × WorkQueueState :=
  match state.inFlight.lookup height with
  | none => (none, state)
  | some item =>
    if height ≤ state.floor ∨ item.owner ≠ some owner ∨ item.hash ≠ hash ∨
        item.budget ≠ .released then (none, state)
    else
      let observedBytes := max item.observedBytes bytes
      let deferred := { item with
        observedBytes := observedBytes
        estimatedBytes := max (item.retryEstimatedBytes.getD item.estimatedBytes) observedBytes
        retryEstimatedBytes := none
        retryAfterTip := some verifiedTip
        owner := none
        answeredElsewhere := false }
      (some ⟨false, item.answeredElsewhere⟩,
        (state.removeInFlight height).putPending height deferred)

def releaseOne (owner : BodyWorkOwner) (height released : Nat) (state : WorkQueueState) :
    Nat × WorkQueueState :=
  match state.inFlight.lookup height with
  | none => (released, state)
  | some item =>
    if item.owner ≠ some owner then (released, state)
    else
      let (total, next) := (state.putInFlight height item.release).addToTotal released item.charge
      (total, next.settleInFlight (some owner) item.charge)

def releaseReservedHeights (owner : BodyWorkOwner) (heights : List Nat) (state : WorkQueueState) :
    Nat × WorkQueueState :=
  let (released, next) := heights.foldl
    (fun current height => releaseOne owner height current.1 current.2) (0, state)
  (released, next.settleLedger released)

/-- Settle one height of an owner: discard it if it is committed, return it if it is reserved. -/
def returnOne (owner : BodyWorkOwner) (height : Nat) (outcome : WorkReturnOutcome)
    (state : WorkQueueState) : WorkReturnOutcome × WorkQueueState :=
  let seen := { outcome with
    minHeight := some ((outcome.minHeight.map (min · height)).getD height)
    maxHeight := some ((outcome.maxHeight.map (max · height)).getD height) }
  match state.inFlight.lookup height with
  | none =>
    if (state.pending.lookup height).isSome then
      ({ seen with alreadyPendingCount := saturatingAdd seen.alreadyPendingCount 1 }, state)
    else ({ seen with missingCount := saturatingAdd seen.missingCount 1 }, state)
  | some item =>
    if item.owner ≠ some owner then
      ({ seen with missingCount := saturatingAdd seen.missingCount 1 }, state)
    else if height ≤ state.floor then
      let settled := (state.removeInFlight height).settleInFlight (some owner) item.charge
      let (total, next) := settled.addToTotal seen.releasedBytes item.charge
      ({ seen with
        releasedBytes := total
        committedCount := saturatingAdd seen.committedCount 1 }, next)
    else if item.budget = .released then
      ({ seen with releasedCount := saturatingAdd seen.releasedCount 1 }, state)
    else
      let settled := (state.removeInFlight height).settleInFlight (some owner) item.charge
      let (total, next) := settled.addToTotal seen.releasedBytes item.charge
      ({ seen with
        releasedBytes := total
        returnedCount := saturatingAdd seen.returnedCount 1 },
        next.putPending height ({ item.release with owner := none } : WorkItem).takeRetryEstimate)

def returnOwned (owner : BodyWorkOwner) (heights : Finset Nat) (state : WorkQueueState) :
    (WorkReturnOutcome × WorkWake) × WorkQueueState :=
  let (outcome, next) := (ascending heights).foldl
    (fun current height => returnOne owner height current.1 current.2)
    (WorkReturnOutcome.empty, state)
  ((outcome, ⟨0 < outcome.returnedCount, false⟩), next.settleLedger outcome.releasedBytes)

def dropPending (height released : Nat) (state : WorkQueueState) : Nat × WorkQueueState :=
  match state.pending.lookup height with
  | none => (released, state)
  | some item => (state.removePending height).addToTotal released item.charge

/-- Drop an in-flight height. Dropping a reserved or answered height is a revocation. -/
def dropInFlight (height : Nat) (current : Nat × Bool) (state : WorkQueueState) :
    (Nat × Bool) × WorkQueueState :=
  match state.inFlight.lookup height with
  | none => (current, state)
  | some item =>
    let settled := (state.removeInFlight height).settleInFlight item.owner item.charge
    let (total, next) := settled.addToTotal current.1 item.charge
    ((total, current.2 || item.budget.isReserved || item.answeredElsewhere), next)

/-- Drop the heights of both maps in the given order, then settle what they reserved. -/
def dropHeights (pendingHeights inFlightHeights : List Nat) (state : WorkQueueState) :
    WorkDelta × WorkQueueState :=
  let (released, unqueued) := pendingHeights.foldl
    (fun current height => dropPending height current.1 current.2) (0, state)
  let ((total, revocation), next) := inFlightHeights.foldl
    (fun current height => dropInFlight height current.1 current.2) ((released, false), unqueued)
  (⟨total, ⟨false, revocation⟩⟩, next.settleLedger total)

def advanceFloor (floor : Nat) (state : WorkQueueState) : WorkDelta × WorkQueueState :=
  let raised := { state with floor := max state.floor floor }
  let upTo (map : FiniteMap Nat WorkItem) : List Nat :=
    (ascending map.keys).filter fun height => height ≤ raised.floor
  raised.dropHeights (upTo raised.pending) (upTo raised.inFlight)

def resetAbove (floor : Nat) (state : WorkQueueState) : WorkDelta × WorkQueueState :=
  let pinned := { state with floor := floor }
  let above (map : FiniteMap Nat WorkItem) : List Nat :=
    ((ascending map.keys).filter fun height => floor < height).reverse
  pinned.dropHeights (above pinned.pending) (above pinned.inFlight)

end WorkQueueState

end Zakura.BlockSync
