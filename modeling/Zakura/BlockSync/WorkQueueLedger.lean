import Zakura.BlockSync.WorkQueueCore

/-!
The ledger of the work queue: every tally is a sum over the in-flight items, and each
step of a transition moves an item and its charge together.
-/

namespace Zakura.BlockSync

open FiniteMap Checked WorkItem Option

open HeaderChain (BodyWorkOwner)

inductive Account
  | bytes
  | items
  | session (id : Nat)

def WorkItem.weight (account : Account) (item : WorkItem) : Nat :=
  match account with
  | .bytes => item.charge
  | .items => if item.charge = 0 then 0 else 1
  | .session id => if item.owner.map (·.sessionId) = some id then item.charge else 0

variable {item other : WorkItem}

theorem WorkItem.weight_of_charge (free : item.charge = 0) (account : Account) :
    item.weight account = 0 := by
  cases account <;> simp [weight, free]

theorem WorkItem.weight_le (item : WorkItem) (account : Account) :
    item.weight account ≤ item.charge := by
  cases account with
  | bytes => exact Nat.le_refl _
  | items | session =>
    unfold weight
    dsimp only
    split <;> omega

theorem WorkItem.weight_congr (sameOwner : item.owner = other.owner)
    (sameBudget : item.budget = other.budget) (account : Account) :
    item.weight account = other.weight account := by
  have sameCharge : item.charge = other.charge := congrArg BlockBudgetLedger.reservedCharge sameBudget
  unfold weight
  rw [sameOwner, sameCharge]

theorem WorkItem.weight_session_of_none
    (unowned : (item.owner.filter fun _ => 0 < item.charge) = none) (id : Nat) :
    item.weight (.session id) = 0 := by
  unfold weight
  cases owned : item.owner with
  | none => simp
  | some owner =>
    rw [owned] at unowned
    simp only [Option.filter, decide_eq_true_eq, ite_eq_right_iff, reduceCtorEq, imp_false,
      Nat.not_lt, Nat.le_zero] at unowned
    simp [unowned]

theorem WorkItem.weight_session_of_some {owner : BodyWorkOwner}
    (owned : (item.owner.filter fun _ => 0 < item.charge) = some owner) :
    0 < item.charge ∧ ∀ id, item.weight (.session id) =
      if id = owner.sessionId then item.charge else 0 := by
  obtain ⟨isOwner, positive⟩ := filter_eq_some_iff.mp owned
  refine ⟨of_decide_eq_true positive, fun id => ?_⟩
  simp [weight, isOwner, eq_comm]

namespace WorkQueueState

variable {state next : WorkQueueState} {height bytes : Nat}

def held (account : Account) (state : WorkQueueState) : Nat :=
  match account with
  | .bytes => state.inFlightReserved.bytes
  | .items => state.inFlightReserved.items
  | .session id => state.heldBy id

def charges (state : WorkQueueState) : Nat := state.inFlight.total WorkItem.charge

def maps (state : WorkQueueState) : FiniteMap Nat WorkItem × FiniteMap Nat WorkItem :=
  (state.pending, state.inFlight)

/-- No height is in both maps. -/
def Apart (state : WorkQueueState) : Prop :=
  ∀ height, state.maps.1.lookup height = none ∨ state.maps.2.lookup height = none

def NoZeroSession (state : WorkQueueState) : Prop :=
  ∀ id, state.sessionReserved.lookup id ≠ some 0

section

variable (state : WorkQueueState) (owner : Option BodyWorkOwner) (charge : Nat)

@[grind =] theorem maps_settleInFlight : (state.settleInFlight owner charge).maps = state.maps := by
  unfold settleInFlight settleTally settleSession
  repeat' split
  all_goals rfl

@[grind =] theorem maps_chargeInFlight : (state.chargeInFlight owner charge).maps = state.maps := by
  unfold chargeInFlight chargeTally chargeSession
  repeat' split
  all_goals rfl

@[grind =] theorem maps_addToTotal (total amount : Nat) :
    (state.addToTotal total amount).2.maps = state.maps := by
  unfold addToTotal
  split <;> rfl

@[grind =] theorem maps_settleLedger (bytes : Nat) :
    (state.settleLedger bytes).maps = state.maps := by
  unfold settleLedger
  split <;> rfl

@[grind =] theorem maps_chargeLedger (bytes : Nat) :
    (state.chargeLedger bytes).maps = state.maps := by
  unfold chargeLedger
  split <;> rfl

theorem chargeInFlight_reservedBytes :
    (state.chargeInFlight owner charge).reservedBytes = state.reservedBytes := by
  unfold chargeInFlight chargeTally chargeSession
  repeat' split
  all_goals rfl

theorem settleInFlight_reservedBytes :
    (state.settleInFlight owner charge).reservedBytes = state.reservedBytes := by
  unfold settleInFlight settleTally settleSession
  repeat' split
  all_goals rfl

@[grind =] theorem pending_eq_maps : state.pending = state.maps.1 := rfl

@[grind =] theorem inFlight_eq_maps : state.inFlight = state.maps.2 := rfl

attribute [grind =] maps putPending putInFlight removePending removeInFlight

end

section

variable {sum : Account → Nat}

theorem settleTally_spec (state : WorkQueueState) (charge : Nat)
    (bytes : charge ≤ state.inFlightReserved.bytes)
    (items : (if charge = 0 then 0 else 1) ≤ state.inFlightReserved.items) :
    state.settleTally charge = { state with inFlightReserved :=
      ⟨state.inFlightReserved.bytes - charge,
        state.inFlightReserved.items - if charge = 0 then 0 else 1⟩ } := by
  unfold settleTally ReservedTally.checkedSub
  by_cases free : charge = 0
  · simp [free]
  · rw [if_neg free] at items
    simp [free, sub_of_le bytes, sub_of_le items]

theorem chargeTally_spec (state : WorkQueueState) (charge : Nat)
    (bytes : state.inFlightReserved.bytes + charge ≤ u64Max)
    (items : state.inFlightReserved.items + (if charge = 0 then 0 else 1) ≤ u64Max) :
    state.chargeTally charge = { state with inFlightReserved :=
      ⟨state.inFlightReserved.bytes + charge,
        state.inFlightReserved.items + if charge = 0 then 0 else 1⟩ } := by
  unfold chargeTally ReservedTally.checkedAdd
  by_cases free : charge = 0
  · simp [free]
  · rw [if_neg free] at items
    simp [free, add_of_le bytes, add_of_le items]

theorem settleSession_spec (state : WorkQueueState) (session charge : Nat)
    (fits : charge ≤ state.heldBy session) (noZero : state.NoZeroSession) :
    ∃ sessions, state.settleSession session charge = { state with sessionReserved := sessions } ∧
      (∀ id, (sessions.lookup id).getD 0 =
        state.heldBy id - if id = session then charge else 0) ∧
      ∀ id, sessions.lookup id ≠ some 0 := by
  unfold settleSession
  rw [sub_of_le fits]
  cases rest : state.heldBy session - charge with
  | zero =>
    refine ⟨_, rfl, fun id => ?_, fun id => ?_⟩
    · rw [lookup_erase_ite]
      by_cases same : id = session
      · subst same
        simp [rest]
      · simp [same, heldBy]
    · rw [lookup_erase_ite]
      split
      · simp
      · exact noZero id
  | succ remaining =>
    refine ⟨_, rfl, fun id => ?_, fun id => ?_⟩
    · rw [lookup_insert_ite]
      by_cases same : id = session
      · subst same
        simp [rest]
      · simp [same, heldBy]
    · rw [lookup_insert_ite]
      split
      · simp
      · exact noZero id

theorem chargeSession_spec (state : WorkQueueState) (session charge : Nat) (positive : 0 < charge)
    (fits : state.heldBy session + charge ≤ u64Max) (noZero : state.NoZeroSession) :
    ∃ sessions, state.chargeSession session charge = { state with sessionReserved := sessions } ∧
      (∀ id, (sessions.lookup id).getD 0 =
        state.heldBy id + if id = session then charge else 0) ∧
      ∀ id, sessions.lookup id ≠ some 0 := by
  unfold chargeSession
  rw [add_of_le fits]
  refine ⟨_, rfl, fun id => ?_, fun id => ?_⟩
  · rw [lookup_insert_ite]
    by_cases same : id = session
    · subst same
      simp
    · simp [same, heldBy]
  rw [lookup_insert_ite]
  split
  · simp only [ne_eq, some.injEq]
    omega
  · exact noZero id

theorem settleInFlight_spec (held : ∀ account, state.held account = sum account + item.weight account)
    (noZero : state.NoZeroSession) :
    (state.settleInFlight item.owner item.charge).ledgerFault = state.ledgerFault ∧
      (∀ account, (state.settleInFlight item.owner item.charge).held account = sum account) ∧
      (state.settleInFlight item.owner item.charge).NoZeroSession := by
  have bytes : state.inFlightReserved.bytes = sum .bytes + item.charge := held .bytes
  have items : state.inFlightReserved.items = sum .items + if item.charge = 0 then 0 else 1 :=
    held .items
  have tally := settleTally_spec state item.charge (by omega) (by omega)
  unfold settleInFlight
  cases owned : item.owner.filter fun _ => 0 < item.charge with
  | none =>
    rw [tally]
    refine ⟨rfl, ?_, noZero⟩
    intro account
    cases account with
    | bytes => exact Nat.sub_eq_of_eq_add bytes
    | items => exact Nat.sub_eq_of_eq_add items
    | session id =>
      have same := held (.session id)
      rw [weight_session_of_none owned] at same
      exact same
  | some owner =>
    obtain ⟨_, weights⟩ := weight_session_of_some owned
    have fits : item.charge ≤ state.heldBy owner.sessionId := by
      have same : state.heldBy owner.sessionId = _ := held (.session owner.sessionId)
      rw [weights, if_pos rfl] at same
      omega
    obtain ⟨_, settled, remaining, stillNoZero⟩ :=
      settleSession_spec (state.settleTally item.charge) owner.sessionId item.charge
        (by rw [tally]; exact fits) (by rw [tally]; exact noZero)
    dsimp only
    rw [settled, tally]
    refine ⟨rfl, ?_, stillNoZero⟩
    intro account
    cases account with
    | bytes => exact Nat.sub_eq_of_eq_add bytes
    | items => exact Nat.sub_eq_of_eq_add items
    | session id =>
      have same : state.heldBy id = _ := held (.session id)
      have left := remaining id
      rw [tally] at left
      rw [weights] at same
      refine left.trans ?_
      change state.heldBy id - _ = _
      omega

theorem chargeInFlight_spec (held : ∀ account, state.held account = sum account)
    (fits : ∀ account, sum account + item.weight account ≤ u64Max) (noZero : state.NoZeroSession) :
    (state.chargeInFlight item.owner item.charge).ledgerFault = state.ledgerFault ∧
      (∀ account, (state.chargeInFlight item.owner item.charge).held account =
        sum account + item.weight account) ∧
      (state.chargeInFlight item.owner item.charge).NoZeroSession := by
  have bytes : state.inFlightReserved.bytes = sum .bytes := held .bytes
  have items : state.inFlightReserved.items = sum .items := held .items
  have tally := chargeTally_spec state item.charge (bytes ▸ fits .bytes) (items ▸ fits .items)
  rw [bytes, items] at tally
  unfold chargeInFlight
  cases owned : item.owner.filter fun _ => 0 < item.charge with
  | none =>
    rw [tally]
    refine ⟨rfl, ?_, noZero⟩
    intro account
    cases account with
    | bytes | items => rfl
    | session id =>
      rw [weight_session_of_none owned]
      exact held (.session id)
  | some owner =>
    obtain ⟨positive, weights⟩ := weight_session_of_some owned
    have room : state.heldBy owner.sessionId + item.charge ≤ u64Max := by
      have same : state.heldBy owner.sessionId = _ := held (.session owner.sessionId)
      have bound := fits (.session owner.sessionId)
      rw [weights, if_pos rfl] at bound
      omega
    obtain ⟨_, charged, grown, stillNoZero⟩ :=
      chargeSession_spec (state.chargeTally item.charge) owner.sessionId item.charge positive
        (by rw [tally]; exact room) (by rw [tally]; exact noZero)
    dsimp only
    rw [charged, tally]
    refine ⟨rfl, ?_, stillNoZero⟩
    intro account
    cases account with
    | bytes | items => rfl
    | session id =>
      have same : state.heldBy id = _ := held (.session id)
      have left := grown id
      rw [tally] at left
      refine left.trans ?_
      change state.heldBy id + _ = _
      rw [same, weights]

def spend (bytes : Nat) (state : WorkQueueState) : WorkQueueState :=
  { state with reservedBytes := state.reservedBytes - bytes }

theorem settleLedger_of_le (fits : bytes ≤ state.reservedBytes) :
    state.settleLedger bytes = state.spend bytes := by
  unfold settleLedger
  rw [sub_of_le fits]
  rfl

theorem addToTotal_spec {total amount : Nat} (fits : total + amount ≤ Checked.u64Max) :
    state.addToTotal total amount = (total + amount, state) := by
  unfold addToTotal
  rw [add_of_le fits]

end

structure Free (item : WorkItem) : Prop where
  unowned : item.owner = none
  uncharged : item.budget = .released

structure Claimed (item : WorkItem) : Prop where
  owned : item.owner.isSome = true
  unpublished : item.provisional = true → item.budget = .released
  estimated : item.charge ≤ item.estimatedBytes

theorem Free.takeRetryEstimate (free : Free item) : Free item.takeRetryEstimate := by
  unfold WorkItem.takeRetryEstimate
  split
  · exact ⟨free.unowned, free.uncharged⟩
  · exact free

theorem Free.charge (free : Free item) : item.charge = 0 :=
  congrArg BlockBudgetLedger.reservedCharge free.uncharged

/-- Every item looks like the items of its map. -/
structure Entries (pending inFlight : FiniteMap Nat WorkItem) : Prop where
  free : ∀ height item, pending.lookup height = some item → Free item
  claimed : ∀ height item, inFlight.lookup height = some item → Claimed item

namespace Entries

variable {pending inFlight : FiniteMap Nat WorkItem} (entries : Entries pending inFlight)
include entries

theorem putPending (free : Free item) : Entries (pending.insert height item) inFlight :=
  ⟨forall_lookup_insert entries.free free, entries.claimed⟩

theorem putInFlight (claimed : Claimed item) : Entries pending (inFlight.insert height item) :=
  ⟨entries.free, forall_lookup_insert entries.claimed claimed⟩

theorem erasePending (height : Nat) : Entries (pending.erase height) inFlight :=
  ⟨forall_lookup_erase entries.free height, entries.claimed⟩

theorem eraseInFlight (height : Nat) : Entries pending (inFlight.erase height) :=
  ⟨entries.free, forall_lookup_erase entries.claimed height⟩

theorem charges_pending : pending.total WorkItem.charge = 0 :=
  total_eq_zero fun height item found => (entries.free height item found).charge

end Entries

structure Tracked (state : WorkQueueState) : Prop where
  entries : Entries state.pending state.inFlight
  tallies : ∀ account, state.held account = state.inFlight.total (weight account)
  noZero : state.NoZeroSession
  noFault : state.ledgerFault = none

theorem Tracked.charges_le (tracked : state.Tracked) :
    state.charges ≤ state.inFlight.total estimatedBytes :=
  total_le fun height item found => (tracked.entries.claimed height item found).estimated

structure Coherent (state : WorkQueueState) : Prop extends Tracked state where
  ledger : state.reservedBytes = state.charges
  bounded : state.reservedBytes ≤ u64Max

theorem coherent_new (floor : Nat) : (new floor).Coherent := by
  refine ⟨⟨⟨?_, ?_⟩, ?_, ?_, rfl⟩, rfl, Nat.zero_le _⟩
  · intro height item found
    cases found
  · intro height item found
    cases found
  · intro account
    cases account <;> rfl
  · intro id found
    cases found

section

variable {changed : WorkQueueState} (entries : Entries changed.pending changed.inFlight)
include entries

theorem Tracked.settleInFlight (tallies : ∀ account, changed.held account =
      changed.inFlight.total (weight account) + item.weight account)
    (noZero : changed.NoZeroSession) (noFault : changed.ledgerFault = none) :
    (changed.settleInFlight item.owner item.charge).Tracked := by
  obtain ⟨sameFault, settled, stillNoZero⟩ := settleInFlight_spec tallies noZero
  refine ⟨?_, fun account => ?_, stillNoZero, sameFault.trans noFault⟩
  · rwa [pending_eq_maps, inFlight_eq_maps, maps_settleInFlight]
  · rw [settled account, inFlight_eq_maps, inFlight_eq_maps, maps_settleInFlight]

theorem Tracked.chargeInFlight (tallies : ∀ account, changed.held account + item.weight account =
      changed.inFlight.total (weight account))
    (bounded : changed.inFlight.total estimatedBytes ≤ u64Max)
    (noZero : changed.NoZeroSession) (noFault : changed.ledgerFault = none) :
    (changed.chargeInFlight item.owner item.charge).Tracked := by
  have fits : ∀ account, changed.held account + item.weight account ≤ u64Max := by
    intro account
    rw [tallies account]
    refine (total_le fun height other found => ?_).trans bounded
    exact (other.weight_le account).trans (entries.claimed height other found).estimated
  obtain ⟨sameFault, charged, stillNoZero⟩ := chargeInFlight_spec (fun _ => rfl) fits noZero
  refine ⟨?_, fun account => ?_, stillNoZero, sameFault.trans noFault⟩
  · rwa [pending_eq_maps, inFlight_eq_maps, maps_chargeInFlight]
  · rw [charged account, tallies account, inFlight_eq_maps, inFlight_eq_maps, maps_chargeInFlight]

end

end WorkQueueState

end Zakura.BlockSync
