import Zakura.BlockSync.WorkQueueLedger

/-!
What each transition of the work queue posts to the ledger: the bytes it charges and the
bytes it releases account for the whole change of the reserved bytes.
-/

namespace Zakura.BlockSync

open FiniteMap List Checked WorkItem
open HeaderChain (Hash BodyWorkAuthority BodyWorkOwner)

namespace WorkQueueState

variable {start state current : WorkQueueState} {item other : WorkItem}
  {height charged released : Nat} {items : List (Nat × WorkItem)}
  {inFlight pending map : FiniteMap Nat WorkItem}

namespace Apart

variable (apart : state.Apart)
include apart

theorem settleLedger (bytes : Nat) : (state.settleLedger bytes).Apart := by
  grind [Apart]

theorem moveInFlight (entry : Nat × WorkItem) : (state.moveInFlight entry).Apart := by
  grind [WorkQueueState.moveInFlight, Apart]

theorem publishLoop (items : List (Nat × WorkItem)) (transferred : Nat) :
    (WorkQueueState.publishLoop items transferred state).2.Apart := by
  induction items generalizing state transferred with
  | nil => exact apart
  | cons entry rest ih =>
    unfold WorkQueueState.publishLoop
    split
    · exact apart
    · dsimp only
      exact ih (by grind [Apart]) _

theorem endReservationAtReceipt (owner : BodyWorkOwner) (height : Nat) (elsewhere : Bool) :
    (state.endReservationAtReceipt owner height elsewhere).2.Apart := by
  grind [WorkQueueState.endReservationAtReceipt, Apart]

theorem dropHeights (pendingHeights inFlightHeights : List Nat) :
    (state.dropHeights pendingHeights inFlightHeights).2.Apart := by
  have unqueued : Apart _ := foldlRecOn
    (motive := fun current : Nat × WorkQueueState => current.2.Apart) pendingHeights
    (fun current height => dropPending height current.1 current.2) (b := (0, state)) apart
    fun current apart height _ => by grind [dropPending, Apart]
  refine settleLedger (foldlRecOn (motive := fun current : (Nat × Bool) × WorkQueueState =>
    current.2.Apart) inFlightHeights _ unqueued fun current apart height _ => ?_) _
  grind [dropInFlight, Apart]

end Apart

/-- A transition that has charged and released these bytes so far, and not yet settled. -/
structure Posting (start : WorkQueueState) (charged released : Nat) (current : WorkQueueState) :
    Prop where
  tracked : current.Tracked
  ledger : current.reservedBytes = start.reservedBytes
  balance : current.charges + released = start.charges + charged

namespace Posting

theorem refl (coherent : start.Coherent) : Posting start 0 0 start :=
  ⟨coherent.toTracked, rfl, rfl⟩

theorem coherent (posting : Posting start 0 0 current) (coherent : start.Coherent) :
    current.Coherent where
  toTracked := posting.tracked
  ledger := by
    rw [posting.ledger, coherent.ledger]
    exact posting.balance.symm
  bounded := posting.ledger ▸ coherent.bounded

section

variable (posting : Posting start 0 released current) (coherent : start.Coherent)
include posting coherent

theorem settleLedger : (current.settleLedger released).Coherent ∧
      (current.settleLedger released).reservedBytes + released = start.reservedBytes := by
  have balance := posting.balance
  have ledger := coherent.ledger
  have bounded := coherent.bounded
  have fits : released ≤ current.reservedBytes := by
    rw [posting.ledger]
    omega
  rw [settleLedger_of_le fits]
  refine ⟨⟨{ posting.tracked with }, ?_, ?_⟩, ?_⟩
  · change current.reservedBytes - released = current.charges
    rw [posting.ledger]
    omega
  · change current.reservedBytes - released ≤ u64Max
    rw [posting.ledger]
    omega
  · change current.reservedBytes - released + released = start.reservedBytes
    rw [posting.ledger]
    omega

theorem fits (found : current.inFlight.lookup height = some item) :
    released + item.charge ≤ u64Max := by
  have part : _ + charge item = current.inFlight.total charge := total_erase found
  have balance := posting.balance
  have ledger := coherent.ledger
  have bounded := coherent.bounded
  unfold charges at *
  omega

end

section

variable (posting : Posting start charged released current)
include posting

/-- The items move, and every account keeps its sum. -/
theorem rearrange (entries : Entries pending inFlight)
    (same : ∀ account, inFlight.total (weight account) = current.inFlight.total (weight account)) :
    Posting start charged released { current with pending := pending, inFlight := inFlight } where
  tracked := ⟨entries, fun account => (posting.tracked.tallies account).trans (same account).symm,
    posting.tracked.noZero, posting.tracked.noFault⟩
  ledger := posting.ledger
  balance := (congrArg (· + released) (same .bytes)).trans posting.balance

theorem putPending (free : Free item) :
    Posting start charged released (current.putPending height item) :=
  posting.rearrange (posting.tracked.entries.putPending free) fun _ => rfl

theorem removePending (height : Nat) :
    Posting start charged released (current.removePending height) :=
  posting.rearrange (posting.tracked.entries.erasePending height) fun _ => rfl

theorem settle (entries : Entries current.pending inFlight)
    (parts : ∀ account, inFlight.total (weight account) + item.weight account =
      current.inFlight.total (weight account)) : Posting start charged (released + item.charge)
      (({ current with inFlight := inFlight } : WorkQueueState).settleInFlight item.owner
        item.charge) := by
  have tallies : ∀ account, ({ current with inFlight := inFlight } : WorkQueueState).held account =
      inFlight.total (weight account) + item.weight account := fun account =>
    (posting.tracked.tallies account).trans (parts account).symm
  have tracked := Tracked.settleInFlight entries tallies posting.tracked.noZero
    posting.tracked.noFault
  refine ⟨tracked, (settleInFlight_reservedBytes _ _ _).trans posting.ledger, ?_⟩
  have part : inFlight.total charge + item.charge = current.charges := parts .bytes
  have balance := posting.balance
  unfold charges at *
  rw [inFlight_eq_maps, maps_settleInFlight]
  dsimp only [maps]
  omega

end

section

variable (posting : Posting start charged released current)
  (found : current.inFlight.lookup height = some item)
include posting found

theorem takeBack : Posting start charged (released + item.charge)
      ((current.removeInFlight height).settleInFlight item.owner item.charge) :=
  posting.settle (posting.tracked.entries.eraseInFlight height) fun _ => total_erase found

theorem backToPending (free : Free other) : Posting start charged (released + item.charge)
      (((current.removeInFlight height).settleInFlight item.owner item.charge).putPending height
        other) :=
  (posting.takeBack found).putPending free

theorem release (sameOwner : other.owner = item.owner) (uncharged : other.budget = .released) :
    Posting start charged (released + item.charge)
      ((current.putInFlight height other).settleInFlight item.owner item.charge) := by
  have free : other.charge = 0 := congrArg BlockBudgetLedger.reservedCharge uncharged
  have entries := posting.tracked.entries
  have claimed : Claimed other := by
    refine ⟨?_, fun _ => uncharged, ?_⟩
    · rw [sameOwner]
      exact (entries.claimed height item found).owned
    · rw [free]
      exact Nat.zero_le _
  refine posting.settle (entries.putInFlight claimed) fun account => ?_
  rw [total_insert_of_present found, weight_of_charge free, Nat.add_zero]

theorem replace (claimed : Claimed other) (sameOwner : other.owner = item.owner)
    (sameBudget : other.budget = item.budget) :
    Posting start charged released (current.putInFlight height other) := by
  have entries := posting.tracked.entries
  refine posting.rearrange (entries.putInFlight claimed) fun account => ?_
  have exchanged : _ + item.weight account = _ + other.weight account :=
    total_insert_of_present found
  rw [weight_congr sameOwner sameBudget account] at exchanged
  exact Nat.add_right_cancel exchanged

theorem removeFree (free : item.charge = 0) :
    Posting start charged released (current.removeInFlight height) := by
  refine posting.rearrange (posting.tracked.entries.eraseInFlight height) fun account => ?_
  rw [← total_erase found, weight_of_charge free, Nat.add_zero]

end

end Posting

section

variable {scope : BodyWorkAuthority}

section

variable (posting : Posting start 0 0 current) (entry : Nat × Hash × BlockSizeEstimate)
include posting entry

theorem Posting.extendOne (inserted : Nat) :
    Posting start 0 0 (extendOne scope entry inserted current).2 := by
  obtain ⟨height, _, _⟩ := entry
  unfold WorkQueueState.extendOne
  dsimp only
  split
  · exact posting
  split
  next item found =>
    split
    · have free := posting.tracked.entries.free height item found
      exact posting.putPending ⟨free.unowned, free.uncharged⟩
    · exact posting
  · split
    · exact posting
    · exact posting.putPending ⟨rfl, rfl⟩

theorem Posting.refreshOne (changed : Bool) :
    Posting start 0 0 (refreshOne scope entry changed current).2 := by
  obtain ⟨height, _, _⟩ := entry
  have entries := posting.tracked.entries
  unfold WorkQueueState.refreshOne
  dsimp only
  split
  · exact posting
  split
  next item found =>
    split
    · have free := entries.free height item found
      exact posting.putPending ⟨free.unowned, free.uncharged⟩
    · exact posting
  split
  next item found =>
    split
    · have claimed := entries.claimed height item found
      exact posting.replace found { claimed with }
        rfl rfl
    · exact posting
  · exact posting

end

theorem posting_extend (coherent : state.Coherent) (scope : BodyWorkAuthority)
    (items : List (Nat × Hash × BlockSizeEstimate)) :
    Posting state 0 0 (state.extend scope items).2 := by
  have first : Posting state 0 0 { state with currentAuthority := some scope } :=
    ⟨{ coherent with }, rfl, rfl⟩
  exact foldlRecOn (motive := fun current : Nat × WorkQueueState =>
    Posting state 0 0 current.2) items _ first
    fun current posting entry _ => posting.extendOne entry current.1

theorem posting_refreshSizeEstimates (coherent : state.Coherent) (scope : BodyWorkAuthority)
    (items : List (Nat × Hash × BlockSizeEstimate)) :
    Posting state 0 0 (state.refreshSizeEstimates scope items).2 := by
  exact foldlRecOn (motive := fun current : Bool × WorkQueueState =>
    Posting state 0 0 current.2) items _ (Posting.refl coherent)
    fun current posting entry _ => posting.refreshOne entry current.1

theorem posting_refreshAuthority (coherent : state.Coherent) (authority : BodyWorkAuthority) :
    Posting state 0 0 (state.refreshAuthority authority).2 := by
  refine ⟨{ coherent with entries := ⟨?_, coherent.entries.claimed⟩ }, rfl, rfl⟩
  intro height item found
  unfold refreshAuthority at found
  rw [lookup_mapValues, Option.map_eq_some_iff] at found
  obtain ⟨old, isOld, rfl⟩ := found
  have free := coherent.entries.free height old isOld
  exact ⟨free.unowned, free.uncharged⟩

end

theorem chargeInFlight_free (owner : Option BodyWorkOwner) : state.chargeInFlight owner 0 = state := by
  unfold chargeInFlight chargeTally ReservedTally.checkedAdd
  have unfiltered : (owner.filter fun _ => decide (0 < 0)) = none := by
    cases owner <;> rfl
  rw [unfiltered]
  rfl

theorem Posting.moveInFlight (posting : Posting start charged released current)
    (absent : current.inFlight.lookup height = none) (claimed : Claimed item)
    (free : item.charge = 0) :
    Posting start charged released (current.moveInFlight (height, item)) := by
  unfold WorkQueueState.moveInFlight
  rw [free, chargeInFlight_free]
  refine posting.rearrange ((posting.tracked.entries.erasePending height).putInFlight claimed) ?_
  intro account
  refine (total_insert_of_absent absent).trans ?_
  rw [weight_of_charge free, Nat.add_zero]

theorem takeLoop_sublist (floor maxCount maxEstimatedBytes : Nat)
    (entries : List (Nat × WorkItem)) (current : Taking) :
    ∃ rest, takeLoop floor maxCount maxEstimatedBytes entries current = current.taken ++ rest ∧
      rest.Sublist entries := by
  have stop : ∀ entries : List (Nat × WorkItem), ∃ rest,
      current.taken = current.taken ++ rest ∧ rest.Sublist entries := fun entries =>
    ⟨[], (append_nil _).symm, nil_sublist _⟩
  induction entries generalizing current with
  | nil => exact stop []
  | cons entry entries ih =>
    obtain ⟨height, item⟩ := entry
    have one : ∃ rest, current.taken ++ [(height, item)] = current.taken ++ rest ∧
        rest.Sublist ((height, item) :: entries) :=
      ⟨[(height, item)], rfl, (nil_sublist _).cons_cons _⟩
    unfold takeLoop
    split
    · exact stop _
    split
    · exact stop _
    split
    · exact stop _
    dsimp only
    split
    · exact stop _
    split
    · exact one
    split
    · obtain ⟨rest, taken, sublist⟩ := ih _ fun _ =>
        ⟨[], (append_nil _).symm, nil_sublist _⟩
      refine ⟨(height, item) :: rest, ?_, sublist.cons_cons _⟩
      rw [taken, append_assoc]
      rfl
    · exact one

theorem mem_entriesIn {low high : Nat} {entry : Nat × WorkItem}
    (listed : entry ∈ entriesIn low high map) : map.lookup entry.1 = some entry.2 := by
  obtain ⟨_, _, found⟩ := mem_filterMap.mp listed
  obtain ⟨_, isItem, rfl⟩ := Option.map_eq_some_iff.mp found
  exact isItem

theorem nodup_entriesIn (low high : Nat) (map : FiniteMap Nat WorkItem) :
    ((entriesIn low high map).map Prod.fst).Nodup := by
  unfold entriesIn List.Nodup
  rw [pairwise_map, pairwise_filterMap]
  refine ((nodup_ascending map.keys).filter _).imp ?_
  intro height other differs entry found second foundSecond
  obtain ⟨item, _, rfl⟩ := Option.map_eq_some_iff.mp found
  obtain ⟨item, _, rfl⟩ := Option.map_eq_some_iff.mp foundSecond
  exact differs

theorem Posting.moveAll {authority : Option BodyWorkAuthority} {sessionId requestId : Nat}
    (run : List (Nat × WorkItem)) (posting : Posting start 0 0 current)
    (distinct : (run.map Prod.fst).Nodup)
    (waiting : ∀ entry ∈ run, current.pending.lookup entry.1 = some entry.2)
    (apart : current.Apart) : Posting start 0 0 ((run.map fun entry =>
      (entry.1, claimItem authority sessionId requestId entry.2)).foldl
        (fun current entry => current.moveInFlight entry) current) := by
  induction run generalizing current with
  | nil => exact posting
  | cons entry rest ih =>
    obtain ⟨height, item⟩ := entry
    have isWaiting := waiting (height, item) (mem_cons_self ..)
    have free := posting.tracked.entries.free height item isWaiting
    have claimed : Claimed (claimItem authority sessionId requestId item) := by
      refine ⟨rfl, fun _ => free.uncharged, ?_⟩
      change item.charge ≤ _
      rw [free.charge]
      exact Nat.zero_le _
    rw [map_cons, nodup_cons] at distinct
    have absent : current.inFlight.lookup height = none := by grind [Apart]
    refine ih (posting.moveInFlight absent claimed free.charge) distinct.2 ?_ (apart.moveInFlight _)
    intro other listed
    have differs : other.1 ≠ height := fun same =>
      distinct.1 (mem_map.mpr ⟨other, listed, same⟩)
    have isNext := waiting other (mem_cons_of_mem _ listed)
    grind [WorkQueueState.moveInFlight]

/-- A take claims a sublist of the pending entries for its request. -/
theorem takeBudgeted_eq (state : WorkQueueState)
    (low high maxCount maxEstimatedBytes sessionId requestId : Nat) :
    ∃ run taken : List (Nat × WorkItem), run.Sublist (entriesIn low high state.pending) ∧
      taken = run.map (fun entry =>
        (entry.1, claimItem state.currentAuthority sessionId requestId entry.2)) ∧
      state.takeBudgeted low high maxCount maxEstimatedBytes sessionId requestId =
        (taken, taken.foldl (fun current entry => current.moveInFlight entry) state) := by
  unfold takeBudgeted
  split
  · exact ⟨[], [], nil_sublist _, rfl, rfl⟩
  obtain ⟨run, taken, sublist⟩ := takeLoop_sublist state.floor maxCount maxEstimatedBytes
    (entriesIn low high state.pending) ⟨[], 0, none, none⟩
  exact ⟨run, _, sublist, rfl, by rw [taken]; rfl⟩

theorem nodup_takeBudgeted (state : WorkQueueState)
    (low high maxCount maxEstimatedBytes sessionId requestId : Nat) :
    ((state.takeBudgeted low high maxCount maxEstimatedBytes sessionId requestId).1.map
      Prod.fst).Nodup := by
  obtain ⟨run, _, sublist, rfl, taken⟩ :=
    takeBudgeted_eq state low high maxCount maxEstimatedBytes sessionId requestId
  rw [taken, map_map]
  exact (sublist.map Prod.fst).nodup (nodup_entriesIn low high state.pending)

theorem posting_takeBudgeted (coherent : state.Coherent) (apart : state.Apart)
    (low high maxCount maxEstimatedBytes sessionId requestId : Nat) : Posting state 0 0
      (state.takeBudgeted low high maxCount maxEstimatedBytes sessionId requestId).2 := by
  obtain ⟨run, _, sublist, rfl, taken⟩ :=
    takeBudgeted_eq state low high maxCount maxEstimatedBytes sessionId requestId
  rw [taken]
  refine (Posting.refl coherent).moveAll run ?_ (fun entry listed => ?_) apart
  · exact (sublist.map Prod.fst).nodup (nodup_entriesIn low high state.pending)
  · exact mem_entriesIn (sublist.subset listed)

theorem Posting.returnUnpublishedOne (posting : Posting start 0 0 current)
    (entry : Nat × WorkItem) : Posting start 0 0 (current.returnUnpublishedOne entry) := by
  unfold WorkQueueState.returnUnpublishedOne
  split
  · exact posting
  rename_i item found
  split
  next isClaim =>
    have uncharged := (posting.tracked.entries.claimed entry.1 item found).unpublished
      isClaim.2.2
    have free : item.charge = 0 := congrArg BlockBudgetLedger.reservedCharge uncharged
    have unclaimed : Free { item with owner := none, provisional := false } := ⟨rfl, uncharged⟩
    have taken := posting.backToPending found unclaimed.takeRetryEstimate
    rwa [free] at taken ⊢
  · exact posting

theorem posting_returnUnpublished (coherent : state.Coherent) (items : List (Nat × WorkItem)) :
    Posting state 0 0 (state.returnUnpublished items) := by
  exact foldlRecOn (motive := Posting state 0 0) items _ (Posting.refl coherent)
    fun current posting entry _ => posting.returnUnpublishedOne entry

def publishItem (item : WorkItem) : WorkItem :=
  { item with budget := .reserved item.estimatedBytes, provisional := false }

def withPublished (height : Nat) (item : WorkItem) (state : WorkQueueState) : WorkQueueState :=
  (state.putInFlight height (publishItem item)).chargeInFlight item.owner item.estimatedBytes

theorem withPublished_inFlight (height : Nat) (item : WorkItem) (state : WorkQueueState) :
    (state.withPublished height item).inFlight = state.inFlight.insert height (publishItem item) :=
  congrArg Prod.snd (maps_chargeInFlight _ _ _)

theorem estimates_publishItem (found : current.inFlight.lookup height = some item) :
    total estimatedBytes (current.inFlight.insert height (publishItem item)) =
      current.inFlight.total estimatedBytes := by
  have exchanged : _ + estimatedBytes item = _ + (publishItem item).estimatedBytes :=
    total_insert_of_present found
  exact Nat.add_right_cancel exchanged

theorem Posting.publishOne (posting : Posting start charged 0 current)
    (found : current.inFlight.lookup height = some item) (uncharged : item.budget = .released)
    (bounded : current.inFlight.total estimatedBytes ≤ u64Max) :
    Posting start (charged + item.estimatedBytes) 0 (current.withPublished height item) := by
  have entries := posting.tracked.entries
  have free : item.charge = 0 := congrArg BlockBudgetLedger.reservedCharge uncharged
  have claimed : Claimed (publishItem item) :=
    ⟨(entries.claimed height item found).owned, nofun, Nat.le_refl _⟩
  have parts : ∀ account, current.inFlight.total (weight account) +
      (publishItem item).weight account =
        total (weight account) (current.inFlight.insert height (publishItem item)) := by
    intro account
    rw [← total_insert_of_present found, weight_of_charge free, Nat.add_zero]
  have tracked : (current.withPublished height item).Tracked := by
    change ((current.putInFlight height (publishItem item)).chargeInFlight (publishItem item).owner
      (publishItem item).charge).Tracked
    refine Tracked.chargeInFlight (entries.putInFlight claimed)
      (fun account => ?_) ?_ posting.tracked.noZero posting.tracked.noFault
    · refine Eq.trans ?_ (parts account)
      exact congrArg (· + (publishItem item).weight account) (posting.tracked.tallies account)
    · exact (estimates_publishItem found).trans_le bounded
  refine ⟨tracked, (chargeInFlight_reservedBytes _ _ _).trans posting.ledger, ?_⟩
  have balance := posting.balance
  have part : current.charges + item.estimatedBytes =
    total charge (current.inFlight.insert height (publishItem item)) := parts .bytes
  unfold charges at *
  rw [withPublished_inFlight]
  omega

def claimEstimates (items : List (Nat × WorkItem)) (state : WorkQueueState) : Nat :=
  (items.map fun entry => ((state.inFlight.lookup entry.1).map estimatedBytes).getD 0).sum

structure Unpublished (items : List (Nat × WorkItem)) (state : WorkQueueState) : Prop where
  distinct : (items.map Prod.fst).Nodup
  provisional : ∀ entry ∈ items, ∃ item, state.inFlight.lookup entry.1 = some item ∧
    item.provisional = true

theorem unpublished_of_claim {owner : BodyWorkOwner} (distinct : (items.map Prod.fst).Nodup)
    (accepted : state.isUnpublishedClaim owner items = true) : Unpublished items state := by
  refine ⟨distinct, fun entry listed => ?_⟩
  unfold isUnpublishedClaim at accepted
  rw [Bool.and_eq_true, all_eq_true] at accepted
  obtain ⟨item, found, holds⟩ := (Option.any_eq_true _ _).mp (accepted.2 entry listed)
  rw [Bool.and_eq_true] at holds
  exact ⟨item, found, holds.2⟩

theorem Posting.publishLoop (items : List (Nat × WorkItem)) (posting : Posting start charged 0 current)
    (unpublished : Unpublished items current)
    (bounded : current.inFlight.total estimatedBytes ≤ u64Max) :
    ∃ next, WorkQueueState.publishLoop items charged current =
        ((charged + current.claimEstimates items, true), next) ∧
      Posting start (charged + current.claimEstimates items) 0 next ∧
      next.inFlight.total estimatedBytes = current.inFlight.total estimatedBytes := by
  induction items generalizing current charged with
  | nil => exact ⟨current, rfl, posting, rfl⟩
  | cons entry rest ih =>
    obtain ⟨height, taken⟩ := entry
    obtain ⟨item, found, isProvisional⟩ :=
      unpublished.provisional (height, taken) (mem_cons_self ..)
    have uncharged := (posting.tracked.entries.claimed height item found).unpublished isProvisional
    have published := posting.publishOne found uncharged bounded
    have stillBounded := estimates_publishItem found
    rw [← withPublished_inFlight] at stillBounded
    have fits : charged + item.estimatedBytes ≤ u64Max := by
      have balance := published.balance
      have below := published.tracked.charges_le
      omega
    have distinct := unpublished.distinct
    rw [map_cons, nodup_cons] at distinct
    have lookups : ∀ other ∈ rest, (current.withPublished height item).inFlight.lookup other.1 =
        current.inFlight.lookup other.1 := by
      intro other listed
      rw [withPublished_inFlight, Finmap.lookup_insert_of_ne]
      exact fun same => distinct.1 (mem_map.mpr ⟨other, listed, same⟩)
    have remaining : Unpublished rest (current.withPublished height item) := by
      refine ⟨distinct.2, fun other listed => ?_⟩
      rw [lookups other listed]
      exact unpublished.provisional other (mem_cons_of_mem _ listed)
    have sameEstimates : (current.withPublished height item).claimEstimates rest =
        current.claimEstimates rest := by
      unfold claimEstimates
      congr 1
      refine map_congr_left fun other listed => ?_
      rw [lookups other listed]
    have total : current.claimEstimates ((height, taken) :: rest) =
        item.estimatedBytes + current.claimEstimates rest := by
      unfold claimEstimates
      rw [map_cons, sum_cons, found]
      rfl
    obtain ⟨next, loop, done, same⟩ := ih published remaining (by omega)
    refine ⟨next, ?_, ?_, same.trans stillBounded⟩
    · unfold WorkQueueState.publishLoop
      rw [found]
      dsimp only
      rw [addToTotal_spec fits, total, ← Nat.add_assoc, ← sameEstimates]
      exact loop
    · rw [sameEstimates, Nat.add_assoc, ← total] at done
      exact done

def totalEstimates (state : WorkQueueState) : Nat :=
  state.pending.total estimatedBytes + state.inFlight.total estimatedBytes

theorem publishClaim_spec (coherent : state.Coherent) (bounded : state.totalEstimates < u64Max)
    (unpublished : Unpublished items state) :
    (state.publishClaim items).1 = some (state.claimEstimates items) ∧
      (state.publishClaim items).2.Coherent ∧ (state.publishClaim items).2.reservedBytes =
        state.reservedBytes + state.claimEstimates items := by
  unfold totalEstimates at bounded
  obtain ⟨next, loop, posting, _⟩ :=
    (Posting.refl coherent).publishLoop items unpublished (by omega)
  rw [Nat.zero_add] at loop posting
  have below := posting.tracked.charges_le
  have balance := posting.balance
  have ledger := coherent.ledger
  have charged : next.chargeLedger (state.claimEstimates items) =
      { next with reservedBytes := state.reservedBytes + state.claimEstimates items } := by
    unfold chargeLedger
    rw [posting.ledger, add_of_le (by omega)]
  unfold publishClaim
  rw [loop]
  dsimp only
  rw [charged]
  refine ⟨rfl, ⟨{ posting.tracked with }, ?_, ?_⟩, rfl⟩
  · change state.reservedBytes + state.claimEstimates items = next.charges
    omega
  · change state.reservedBytes + state.claimEstimates items ≤ _
    omega

theorem endReservationAtReceipt_spec (coherent : state.Coherent) (owner : BodyWorkOwner)
    (height : Nat) (answeredElsewhere : Bool) :
    (state.endReservationAtReceipt owner height answeredElsewhere).2.Coherent ∧
      (state.endReservationAtReceipt owner height answeredElsewhere).2.reservedBytes +
        ((state.endReservationAtReceipt owner height answeredElsewhere).1.getD 0) =
          state.reservedBytes := by
  unfold endReservationAtReceipt
  split
  · exact ⟨coherent, rfl⟩
  rename_i item found
  split
  · exact ⟨coherent, rfl⟩
  rename_i holds
  have isOwner : item.owner = some owner := by
    by_contra other
    exact holds (.inl other)
  have fits : item.charge ≤ state.reservedBytes := by
    have part : _ + charge item = state.charges := total_erase found
    have ledger := coherent.ledger
    omega
  have settled : (state.putInFlight height { item.release with
      answeredElsewhere := answeredElsewhere }).settleLedger item.charge =
        (state.spend item.charge).putInFlight height { item.release with
          answeredElsewhere := answeredElsewhere } := settleLedger_of_le fits
  have spent : Posting (state.spend item.charge) 0 0 (state.spend item.charge) :=
    ⟨{ coherent with }, rfl, rfl⟩
  have posting : Posting (state.spend item.charge) 0 (0 + item.charge)
      (((state.spend item.charge).putInFlight height { item.release with
        answeredElsewhere := answeredElsewhere }).settleInFlight item.owner item.charge) :=
    spent.release found rfl rfl
  have balance := posting.balance
  have ledger := posting.ledger
  have coherentLedger := coherent.ledger
  have bounded := coherent.bounded
  dsimp only
  rw [settled, ← isOwner]
  refine ⟨⟨posting.tracked, ?_, ?_⟩, ?_⟩
  all_goals
    change _ + _ = state.charges + 0 at balance
    change _ = state.reservedBytes - item.charge at ledger
    first
    | omega
    | change _ + item.charge = _
      omega

theorem endCompetingReservationAtReceipt_spec (coherent : state.Coherent) (height : Nat)
    (hash : Hash) : (state.endCompetingReservationAtReceipt height hash).2.Coherent ∧
      (state.endCompetingReservationAtReceipt height hash).2.reservedBytes +
        (((state.endCompetingReservationAtReceipt height hash).1.map Prod.snd).getD 0) =
          state.reservedBytes := by
  unfold endCompetingReservationAtReceipt
  split
  · exact ⟨coherent, rfl⟩
  split
  · split
    · exact ⟨coherent, rfl⟩
    rename_i owner _
    have ended := endReservationAtReceipt_spec coherent owner height true
    rw [Option.map_map]
    refine ⟨ended.1, ?_⟩
    rw [← ended.2]
    cases (state.endReservationAtReceipt owner height true).1 <;> rfl
  · exact ⟨coherent, rfl⟩

theorem posting_deferReceived (coherent : state.Coherent) (owner : BodyWorkOwner) (height : Nat)
    (hash : Hash) (bytes verifiedTip : Nat) :
    Posting state 0 0 (state.deferReceived owner height hash bytes verifiedTip).2 := by
  unfold deferReceived
  split
  · exact Posting.refl coherent
  rename_i item found
  split
  · exact Posting.refl coherent
  rename_i holds
  have uncharged : item.budget = .released := by
    by_contra charged
    exact holds (.inr (.inr (.inr charged)))
  have free : item.charge = 0 := congrArg BlockBudgetLedger.reservedCharge uncharged
  have removed := (Posting.refl coherent).removeFree found free
  exact removed.putPending ⟨rfl, uncharged⟩

section

variable {owner : BodyWorkOwner}

theorem Posting.releaseOne (posting : Posting start 0 released current) (coherent : start.Coherent)
    (height : Nat) : Posting start 0 (current.releaseOne owner height released).1
      (current.releaseOne owner height released).2 := by
  unfold WorkQueueState.releaseOne
  split
  · exact posting
  rename_i item found
  split
  · exact posting
  rename_i holds
  have isOwner : item.owner = some owner := Classical.not_not.mp holds
  rw [addToTotal_spec (posting.fits coherent found), ← isOwner]
  exact posting.release found rfl rfl

theorem releaseReservedHeights_spec (coherent : state.Coherent) (owner : BodyWorkOwner)
    (heights : List Nat) : (state.releaseReservedHeights owner heights).2.Coherent ∧
      (state.releaseReservedHeights owner heights).2.reservedBytes +
        (state.releaseReservedHeights owner heights).1 = state.reservedBytes := by
  refine Posting.settleLedger ?_ coherent
  exact foldlRecOn (motive := fun current : Nat × WorkQueueState =>
    Posting state 0 current.1 current.2) heights _ (Posting.refl coherent)
    fun current posting height _ => posting.releaseOne coherent height

theorem Posting.returnOne {outcome : WorkReturnOutcome}
    (posting : Posting start 0 outcome.releasedBytes current) (coherent : start.Coherent)
    (height : Nat) : Posting start 0 (current.returnOne owner height outcome).1.releasedBytes
      (current.returnOne owner height outcome).2 := by
  unfold WorkQueueState.returnOne
  dsimp only
  split
  · split <;> exact posting
  rename_i item found
  split
  · exact posting
  rename_i holds
  have isOwner : item.owner = some owner := Classical.not_not.mp holds
  have fits := posting.fits coherent found
  split
  · rw [addToTotal_spec fits, ← isOwner]
    exact posting.takeBack found
  split
  · exact posting
  · rw [addToTotal_spec fits, ← isOwner]
    have returned : Free { item.release with owner := none } := ⟨rfl, rfl⟩
    exact posting.backToPending found returned.takeRetryEstimate

theorem returnOwned_spec (coherent : state.Coherent) (owner : BodyWorkOwner)
    (heights : Finset Nat) : (state.returnOwned owner heights).2.Coherent ∧
      (state.returnOwned owner heights).2.reservedBytes +
        (state.returnOwned owner heights).1.1.releasedBytes = state.reservedBytes := by
  refine Posting.settleLedger ?_ coherent
  exact foldlRecOn (motive := fun current : WorkReturnOutcome × WorkQueueState =>
    Posting state 0 current.1.releasedBytes current.2) (ascending heights) _ (Posting.refl coherent)
    fun current posting height _ => posting.returnOne coherent height

end

section

variable (posting : Posting start 0 released current) (coherent : start.Coherent)
include posting coherent

theorem Posting.dropPending (height : Nat) : Posting start 0 (current.dropPending height released).1
      (current.dropPending height released).2 := by
  unfold WorkQueueState.dropPending
  split
  · exact posting
  rename_i item found
  have free := (posting.tracked.entries.free height item found).charge
  have fits : released + item.charge ≤ u64Max := by
    have balance := posting.balance
    have ledger := coherent.ledger
    have bounded := coherent.bounded
    omega
  rw [addToTotal_spec fits, free]
  exact posting.removePending height

theorem Posting.dropInFlight {revocation : Bool} (height : Nat) :
    Posting start 0 (current.dropInFlight height (released, revocation)).1.1
      (current.dropInFlight height (released, revocation)).2 := by
  unfold WorkQueueState.dropInFlight
  split
  · exact posting
  rename_i item found
  dsimp only
  rw [addToTotal_spec (posting.fits coherent found)]
  exact posting.takeBack found

end

theorem dropHeights_spec (coherent : state.Coherent) (pendingHeights inFlightHeights : List Nat) :
    (state.dropHeights pendingHeights inFlightHeights).2.Coherent ∧
      (state.dropHeights pendingHeights inFlightHeights).2.reservedBytes +
        (state.dropHeights pendingHeights inFlightHeights).1.releasedBytes =
          state.reservedBytes := by
  refine Posting.settleLedger ?_ coherent
  have unqueued : Posting state 0 _ _ := foldlRecOn
    (motive := fun current : Nat × WorkQueueState => Posting state 0 current.1 current.2)
    pendingHeights (fun current height => dropPending height current.1 current.2) (b := (0, state))
    (Posting.refl coherent) fun current posting height _ => posting.dropPending coherent height
  exact foldlRecOn (motive := fun current : (Nat × Bool) × WorkQueueState =>
    Posting state 0 current.1.1 current.2) inFlightHeights _ unqueued
    fun current posting height _ => posting.dropInFlight coherent height

theorem advanceFloor_spec (coherent : state.Coherent) (floor : Nat) :
    (state.advanceFloor floor).2.Coherent ∧
      (state.advanceFloor floor).2.reservedBytes + (state.advanceFloor floor).1.releasedBytes =
        state.reservedBytes := by
  have raised : ({ state with floor := max state.floor floor } : WorkQueueState).Coherent :=
    ⟨{ coherent with }, coherent.ledger, coherent.bounded⟩
  exact dropHeights_spec raised _ _

theorem resetAbove_spec (coherent : state.Coherent) (floor : Nat) :
    (state.resetAbove floor).2.Coherent ∧
      (state.resetAbove floor).2.reservedBytes + (state.resetAbove floor).1.releasedBytes =
        state.reservedBytes := by
  have pinned : ({ state with floor := floor } : WorkQueueState).Coherent :=
    ⟨{ coherent with }, coherent.ledger, coherent.bounded⟩
  exact dropHeights_spec pinned _ _

end WorkQueueState

end Zakura.BlockSync
