import Zakura.BlockSync.WorkQueueSteps

/-!
Runs of the work queue: whatever sequence of transitions is applied, the ledger, the
tallies and the two maps stay in agreement, and every transition reports exactly the
bytes it took out of the ledger.
-/

namespace Zakura.BlockSync

open FiniteMap List Option
open HeaderChain (Hash BodyWorkAuthority BodyWorkOwner)

/-- The lists that takes have returned, newest first. -/
abbrev TakenLists := List (List (Nat × WorkItem))

inductive WorkItemPlace
  | pending
  | provisional
  | inFlight
deriving DecidableEq

namespace WorkQueueState

variable {state next : WorkQueueState} {item : WorkItem} {height released floor : Nat}

def ownership (state : WorkQueueState) (height : Nat) : Option (WorkItem × WorkItemPlace) :=
  match state.pending.lookup height with
  | some item => some (item, .pending)
  | none => (state.inFlight.lookup height).map fun item =>
    (item, if item.provisional then .provisional else .inFlight)

inductive Transition
  | extend (scope : BodyWorkAuthority) (items : List (Nat × Hash × BlockSizeEstimate))
  | refreshSizeEstimates (scope : BodyWorkAuthority) (items : List (Nat × Hash × BlockSizeEstimate))
  | refreshAuthority (authority : BodyWorkAuthority)
  | takeBudgeted (low high maxCount maxEstimatedBytes sessionId requestId : Nat)
  | returnUnpublished (items : List (Nat × WorkItem))
  | publishClaim (owner : BodyWorkOwner) (items : List (Nat × WorkItem))
  | endReservationAtReceipt (owner : BodyWorkOwner) (height : Nat) (answeredElsewhere : Bool)
  | endCompetingReservationAtReceipt (height : Nat) (hash : Hash)
  | deferReceived (owner : BodyWorkOwner) (height : Nat) (hash : Hash) (bytes verifiedTip : Nat)
  | releaseReservedHeights (owner : BodyWorkOwner) (heights : List Nat)
  | returnOwned (owner : BodyWorkOwner) (heights : Finset Nat)
  | advanceFloor (floor : Nat)
  | resetAbove (floor : Nat)

namespace Transition

/-- The bytes a transition reports: what it took out of the ledger, or what it put into it. -/
structure Report where
  releasedBytes : Nat
  transferredBytes : Nat
deriving DecidableEq

def quiet (next : WorkQueueState) : Report × WorkQueueState := (⟨0, 0⟩, next)

def releasing (released : Nat) (next : WorkQueueState) : Report × WorkQueueState :=
  (⟨released, 0⟩, next)

def apply (state : WorkQueueState) : Transition → Report × WorkQueueState
  | .extend scope items => quiet (state.extend scope items).2
  | .refreshSizeEstimates scope items => quiet (state.refreshSizeEstimates scope items).2
  | .refreshAuthority authority => quiet (state.refreshAuthority authority).2
  | .takeBudgeted low high maxCount maxEstimatedBytes sessionId requestId =>
    quiet (state.takeBudgeted low high maxCount maxEstimatedBytes sessionId requestId).2
  | .returnUnpublished items => quiet (state.returnUnpublished items)
  | .publishClaim _ items =>
    let (transferred, next) := state.publishClaim items
    (⟨0, transferred.getD 0⟩, next)
  | .endReservationAtReceipt owner height answeredElsewhere =>
    let (released, next) := state.endReservationAtReceipt owner height answeredElsewhere
    releasing (released.getD 0) next
  | .endCompetingReservationAtReceipt height hash =>
    let (released, next) := state.endCompetingReservationAtReceipt height hash
    releasing ((released.map Prod.snd).getD 0) next
  | .deferReceived owner height hash bytes verifiedTip =>
    quiet (state.deferReceived owner height hash bytes verifiedTip).2
  | .releaseReservedHeights owner heights =>
    let (released, next) := state.releaseReservedHeights owner heights
    releasing released next
  | .returnOwned owner heights =>
    let ((outcome, _), next) := state.returnOwned owner heights
    releasing outcome.releasedBytes next
  | .advanceFloor floor =>
    let (delta, next) := state.advanceFloor floor
    releasing delta.releasedBytes next
  | .resetAbove floor =>
    let (delta, next) := state.resetAbove floor
    releasing delta.releasedBytes next

def taken (state : WorkQueueState) (lists : TakenLists) : Transition → TakenLists
  | .takeBudgeted low high maxCount maxEstimatedBytes sessionId requestId =>
    (state.takeBudgeted low high maxCount maxEstimatedBytes sessionId requestId).1 :: lists
  | _ => lists

/-- A request publishes what it kept of the list it took. -/
def Allowed (lists : TakenLists) (state : WorkQueueState) (transition : Transition) : Prop :=
  state.totalEstimates < Checked.u64Max ∧
    match transition with
    | .publishClaim owner items =>
      (∃ list ∈ lists, items.Sublist list) ∧ state.isUnpublishedClaim owner items = true
    | _ => True

structure Balanced (state : WorkQueueState) (transition : Transition) : Prop where
  coherent : (transition.apply state).2.Coherent
  ledger : (transition.apply state).2.reservedBytes + (transition.apply state).1.releasedBytes =
    state.reservedBytes + (transition.apply state).1.transferredBytes

theorem apart (apart : state.Apart) (transition : Transition) :
    (transition.apply state).2.Apart := by
  cases transition with
  | extend scope items =>
    refine foldlRecOn (motive := fun current : Nat × WorkQueueState => current.2.Apart) items _
      apart fun current apart entry _ => ?_
    grind [extendOne, Apart, isSome_iff_ne_none]
  | refreshSizeEstimates scope items =>
    refine foldlRecOn (motive := fun current : Bool × WorkQueueState => current.2.Apart) items _
      apart fun current apart entry _ => ?_
    grind [refreshOne, Apart]
  | refreshAuthority authority =>
    intro height
    refine (apart height).imp_left fun absent => (lookup_mapValues _ _ _).trans ?_
    exact map_eq_none_iff.mpr absent
  | takeBudgeted low high maxCount maxEstimatedBytes sessionId requestId =>
    obtain ⟨_, _, _, _, taken⟩ :=
      takeBudgeted_eq state low high maxCount maxEstimatedBytes sessionId requestId
    change (state.takeBudgeted ..).2.Apart
    rw [taken]
    exact foldlRecOn (motive := Apart) _ _ apart fun _ apart entry _ => apart.moveInFlight entry
  | returnUnpublished items =>
    refine foldlRecOn (motive := Apart) items _ apart fun current apart entry _ => ?_
    grind [returnUnpublishedOne, Apart]
  | publishClaim owner items =>
    have published := apart.publishLoop items 0
    grind [Transition.apply, WorkQueueState.publishClaim, Apart]
  | endReservationAtReceipt owner height elsewhere =>
    exact apart.endReservationAtReceipt owner height elsewhere
  | endCompetingReservationAtReceipt height hash =>
    grind [Transition.apply, Transition.releasing, WorkQueueState.endCompetingReservationAtReceipt,
      Apart.endReservationAtReceipt]
  | deferReceived owner height hash bytes verifiedTip =>
    grind [Transition.apply, Transition.quiet, WorkQueueState.deferReceived, Apart]
  | releaseReservedHeights owner heights =>
    refine Apart.settleLedger (foldlRecOn (motive := fun current : Nat × WorkQueueState =>
      current.2.Apart) heights _ apart fun current apart height _ => ?_) _
    grind [releaseOne, Apart]
  | returnOwned owner heights =>
    refine Apart.settleLedger (foldlRecOn (motive := fun current : WorkReturnOutcome × _ =>
      Apart current.2) (ascending heights) _ apart fun current apart height _ => ?_) _
    grind [returnOne, Apart]
  | advanceFloor floor | resetAbove floor => exact Apart.dropHeights (by exact apart) _ _

variable {transition : Transition} {lists : TakenLists}

theorem balanced_of_posting (coherent : state.Coherent) (posting : Posting state 0 0 next)
    (applied : transition.apply state = quiet next) : Balanced state transition := by
  refine ⟨?_, ?_⟩ <;> rw [applied]
  · exact posting.coherent coherent
  · exact posting.ledger

theorem balanced_of_release
    (settled : next.Coherent ∧ next.reservedBytes + released = state.reservedBytes)
    (applied : transition.apply state = releasing released next) : Balanced state transition := by
  refine ⟨?_, ?_⟩ <;> rw [applied]
  · exact settled.1
  · exact settled.2

theorem balanced (coherent : state.Coherent) (apart : state.Apart)
    (distinct : ∀ list ∈ lists, (list.map Prod.fst).Nodup)
    (allowed : transition.Allowed lists state) : Balanced state transition := by
  cases transition with
  | extend scope items =>
    exact balanced_of_posting coherent (posting_extend coherent scope items) rfl
  | refreshSizeEstimates scope items =>
    exact balanced_of_posting coherent (posting_refreshSizeEstimates coherent scope items) rfl
  | refreshAuthority authority =>
    exact balanced_of_posting coherent (posting_refreshAuthority coherent authority) rfl
  | takeBudgeted low high maxCount maxEstimatedBytes sessionId requestId =>
    exact balanced_of_posting coherent
      (posting_takeBudgeted coherent apart low high maxCount maxEstimatedBytes sessionId requestId) rfl
  | returnUnpublished items =>
    exact balanced_of_posting coherent (posting_returnUnpublished coherent items) rfl
  | publishClaim owner items =>
    obtain ⟨bounded, ⟨list, isTaken, part⟩, accepted⟩ := allowed
    -- The guard would accept a height twice, but no take returns one twice.
    have once := (part.map Prod.fst).nodup (distinct list isTaken)
    obtain ⟨transferred, published, ledger⟩ :=
      publishClaim_spec coherent bounded (unpublished_of_claim once accepted)
    refine ⟨published, ?_⟩
    change _ + 0 = state.reservedBytes + ((state.publishClaim items).1).getD 0
    rw [transferred]
    exact ledger
  | endReservationAtReceipt owner height answeredElsewhere =>
    exact balanced_of_release
      (endReservationAtReceipt_spec coherent owner height answeredElsewhere) rfl
  | endCompetingReservationAtReceipt height hash =>
    exact balanced_of_release (endCompetingReservationAtReceipt_spec coherent height hash) rfl
  | deferReceived owner height hash bytes verifiedTip =>
    exact balanced_of_posting coherent
      (posting_deferReceived coherent owner height hash bytes verifiedTip) rfl
  | releaseReservedHeights owner heights =>
    exact balanced_of_release (releaseReservedHeights_spec coherent owner heights) rfl
  | returnOwned owner heights =>
    exact balanced_of_release (returnOwned_spec coherent owner heights) rfl
  | advanceFloor floor => exact balanced_of_release (advanceFloor_spec coherent floor) rfl
  | resetAbove floor => exact balanced_of_release (resetAbove_spec coherent floor) rfl

end Transition

/-- Runs from an empty queue, with the lists taken on the way. -/
inductive Reachable (floor : Nat) (allowed : TakenLists → WorkQueueState → Transition → Prop) :
    TakenLists → WorkQueueState → Prop
  | new : Reachable floor allowed [] (new floor)
  | step {lists : TakenLists} {state : WorkQueueState} (transition : Transition)
      (reached : Reachable floor allowed lists state) (permitted : allowed lists state transition) :
      Reachable floor allowed (transition.taken state lists) (transition.apply state).2

section

variable {lists : TakenLists}
  {allowed : TakenLists → WorkQueueState → Transition → Prop}

theorem Reachable.distinct (reached : Reachable floor allowed lists state) :
    ∀ list ∈ lists, (list.map Prod.fst).Nodup := by
  induction reached with
  | new => simp
  | step transition _ _ ih =>
    cases transition with
    | takeBudgeted low high maxCount maxEstimatedBytes sessionId requestId =>
      exact List.forall_mem_cons.mpr ⟨nodup_takeBudgeted .., ih⟩
    | _ => exact ih

theorem Reachable.apart (reached : Reachable floor allowed lists state) : state.Apart := by
  induction reached with
  | new => exact fun _ => .inl rfl
  | step transition _ _ apart => exact transition.apart apart

theorem Reachable.coherent (reached : Reachable floor Transition.Allowed lists state) :
    state.Coherent := by
  induction reached with
  | new => exact coherent_new floor
  | step transition reached allowed coherent =>
    exact (Transition.balanced coherent reached.apart reached.distinct allowed).coherent

end

structure Sound (state : WorkQueueState) : Prop where
  apart : ∀ height, state.pending.lookup height = none ∨ state.inFlight.lookup height = none
  pendingItems : ∀ height item, state.ownership height = some (item, .pending) →
    item.owner = none ∧ item.charge = 0
  provisionalItems : ∀ height item, state.ownership height = some (item, .provisional) →
    item.owner.isSome = true ∧ item.charge = 0
  reservedBytes : state.reservedBytes =
    state.pending.total WorkItem.charge + state.inFlight.total WorkItem.charge
  inFlightBytes : state.inFlightReserved.bytes = state.inFlight.total WorkItem.charge
  inFlightItems : state.inFlightReserved.items =
    state.inFlight.total fun item => if item.charge = 0 then 0 else 1
  sessions : ∀ id, (state.sessionReserved.lookup id).getD 0 = state.inFlight.total fun item =>
    if item.owner.map (·.sessionId) = some id then item.charge else 0
  noZeroSession : ∀ id, state.sessionReserved.lookup id ≠ some 0
  noFault : state.ledgerFault = none

theorem ownership_eq_pending (placed : state.ownership height = some (item, .pending)) :
    state.pending.lookup height = some item := by
  unfold ownership at placed
  split at placed
  next waiting found =>
    cases placed
    exact found
  · obtain ⟨_, _, isPlaced⟩ := Option.map_eq_some_iff.mp placed
    split at isPlaced <;> cases isPlaced

theorem ownership_eq_provisional (placed : state.ownership height = some (item, .provisional)) :
    state.inFlight.lookup height = some item ∧ item.provisional = true := by
  unfold ownership at placed
  split at placed
  · cases placed
  obtain ⟨_, found, isPlaced⟩ := Option.map_eq_some_iff.mp placed
  split at isPlaced
  next isProvisional =>
    cases isPlaced
    exact ⟨found, isProvisional⟩
  · cases isPlaced

theorem Coherent.sound (coherent : state.Coherent) (apart : state.Apart) : state.Sound where
  apart := apart
  pendingItems height item placed := by
    have free := coherent.entries.free height item (ownership_eq_pending placed)
    exact ⟨free.unowned, free.charge⟩
  provisionalItems height item placed := by
    obtain ⟨found, isProvisional⟩ := ownership_eq_provisional placed
    have claimed := coherent.entries.claimed height item found
    exact ⟨claimed.owned,
      congrArg BlockBudgetLedger.reservedCharge (claimed.unpublished isProvisional)⟩
  reservedBytes := by
    rw [coherent.entries.charges_pending, Nat.zero_add]
    exact coherent.ledger
  inFlightBytes := coherent.tallies .bytes
  inFlightItems := coherent.tallies .items
  sessions id := coherent.tallies (.session id)
  noZeroSession := coherent.noZero
  noFault := coherent.noFault

/-- Every run keeps the ledger invariant, and every transition reports exactly what it took
out of the ledger or put into it. -/
theorem ledger_sound {floor : Nat} {lists : TakenLists}
    (reached : Reachable floor Transition.Allowed lists state) :
    state.Sound ∧ ∀ transition : Transition, transition.Allowed lists state →
      (transition.apply state).2.Sound ∧
        (transition.apply state).2.reservedBytes + (transition.apply state).1.releasedBytes =
          state.reservedBytes + (transition.apply state).1.transferredBytes := by
  have coherent := reached.coherent
  refine ⟨coherent.sound reached.apart, fun transition allowed => ?_⟩
  have balanced := Transition.balanced coherent reached.apart reached.distinct allowed
  exact ⟨balanced.coherent.sound (transition.apart reached.apart), balanced.ledger⟩

end WorkQueueState

namespace Sample

open WorkQueueState

def scope : BodyWorkAuthority := ⟨⟨0, ⟨⟨0⟩, ⟨9⟩⟩⟩, 0, 0⟩

def targets : List (Nat × Hash × BlockSizeEstimate) :=
  [(1, ⟨11⟩, .unknown), (2, ⟨12⟩, .confirmed 5000)]

def queued : WorkQueueState := ((WorkQueueState.new 0).extend scope targets).2

def taken : List (Nat × WorkItem) × WorkQueueState :=
  queued.takeBudgeted 1 2 8 maxBlockBytes 3 1

theorem taken_reachable : Reachable 0 Transition.Allowed [taken.1] taken.2 :=
  .step (.takeBudgeted 1 2 8 maxBlockBytes 3 1)
    (.step (.extend scope targets) .new ⟨by decide +kernel, trivial⟩)
    ⟨by decide +kernel, trivial⟩

def publish : Transition := .publishClaim (scope.bind 3 1) taken.1

theorem ledger_sound_of_publish : publish.Allowed [taken.1] taken.2 ∧
      (publish.apply taken.2).2.Sound ∧
      (publish.apply taken.2).1.transferredBytes = maxBlockBytes := by
  have allowed : publish.Allowed [taken.1] taken.2 :=
    ⟨by decide +kernel, ⟨_, by simp, List.Sublist.refl _⟩, by decide +kernel⟩
  exact ⟨allowed, ((ledger_sound taken_reachable).2 _ allowed).1, by decide +kernel⟩

end Sample

end Zakura.BlockSync
