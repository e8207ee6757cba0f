import Zakura.NonFinalized.IndexJournal
import Mathlib.Algebra.Ring.Int.Defs

/-!
The index functions and the journal. An update succeeds when its entries are fresh
and the balance of its address stays a valid amount; a revert succeeds when its
entries are present and the balance stays a valid amount.
-/

namespace Zakura.NonFinalized

open HeaderChain (Hash u256Bound)
open FiniteMap Fallible TransparentTransfers List Except ChainIndex ChainUpdate Constraint

variable {Value Key History : Type} {settings : ChainSettings History}

namespace TransparentTransfers

variable {before after : TransparentTransfers} {outpoint : OutPoint} {utxo : OrderedUtxo}
  {spendingTxHash : TransactionHash}

theorem movedBalance_eq_ok {value balance : Int} {message : String} :
    before.movedBalance value message = .ok balance ↔
      balance = before.balance + value ∧ negativeAllowed.Holds balance := by
  unfold movedBalance
  split <;> simp_all [eq_comm]

theorem updateWithCreated_eq_ok : before.updateWithCreated outpoint utxo = .ok after ↔
      (TransferEdit.ofCreated outpoint utxo).Applied before after ∧
        negativeAllowed.Holds after.balance := by
  simp only [updateWithCreated, bind_eq_ok, movedBalance_eq_ok, ite_error_eq_ok, pure_eq_ok,
    Option.not_isSome_iff_eq_none]
  constructor
  · rintro ⟨balance, ⟨rfl, inRange⟩, absent, rfl⟩
    exact ⟨⟨rfl, rfl, ⟨absent, rfl⟩, rfl⟩, inRange⟩
  · cases after
    rintro ⟨⟨balance, rfl, ⟨absent, rfl⟩, rfl⟩, inRange⟩
    exact ⟨_, ⟨balance, inRange⟩, absent, rfl⟩

theorem updateWithSpent_eq_ok : before.updateWithSpent outpoint spendingTxHash utxo = .ok after ↔
      (TransferEdit.ofSpent outpoint spendingTxHash utxo).Applied before after ∧
        negativeAllowed.Holds after.balance := by
  simp only [updateWithSpent, bind_eq_ok, movedBalance_eq_ok, ite_error_eq_ok, pure_eq_ok]
  constructor
  · rintro ⟨balance, ⟨rfl, inRange⟩, fresh, rfl⟩
    exact ⟨⟨rfl, rfl, rfl, ⟨fresh, rfl⟩⟩, inRange⟩
  · cases after
    rintro ⟨⟨balance, rfl, rfl, ⟨fresh, rfl⟩⟩, inRange⟩
    exact ⟨_, ⟨balance, inRange⟩, fresh, rfl⟩

theorem revertCreated_eq_ok : before.revertCreated outpoint utxo = .ok after ↔
      (TransferEdit.ofCreated outpoint utxo).Reverted before after ∧
        negativeAllowed.Holds after.balance := by
  simp only [revertCreated, bind_eq_ok, movedBalance_eq_ok, ite_error_eq_ok, pure_eq_ok,
    Bool.not_eq_true, Option.isNone_eq_false_iff, not_not]
  constructor
  · rintro ⟨balance, ⟨rfl, inRange⟩, found, listed, rfl⟩
    exact ⟨⟨rfl, listed, rfl, ⟨found, rfl⟩, rfl⟩, inRange⟩
  · cases after
    rintro ⟨⟨balance, listed, rfl, ⟨found, rfl⟩, rfl⟩, inRange⟩
    exact ⟨_, ⟨balance, inRange⟩, found, listed, rfl⟩

theorem revertSpent_eq_ok : before.revertSpent outpoint spendingTxHash utxo = .ok after ↔
      (TransferEdit.ofSpent outpoint spendingTxHash utxo).Reverted before after ∧
        negativeAllowed.Holds after.balance := by
  simp only [revertSpent, bind_eq_ok, movedBalance_eq_ok, ite_error_eq_ok, pure_eq_ok, not_not]
  have sign : (TransferEdit.ofSpent outpoint spendingTxHash utxo).value =
      -utxo.utxo.output.value.zatoshis := rfl
  constructor
  · rintro ⟨balance, ⟨rfl, inRange⟩, found, listed, rfl⟩
    exact ⟨⟨by rw [sign]; dsimp only; omega, listed, rfl, rfl, ⟨found, rfl⟩⟩, inRange⟩
  cases after
  rintro ⟨⟨balance, listed, rfl, rfl, ⟨found, rfl⟩⟩, inRange⟩
  dsimp only at balance
  exact ⟨_, ⟨by dsimp only; omega, inRange⟩, found, listed, rfl⟩

end TransparentTransfers

def ChainIndex.balance (index : ChainIndex) (address : Address) : Int :=
  (transfersOf index.partialTransparentTransfers address).balance

namespace ChainUpdate

variable (settings : ChainSettings History)

def movement (update : ChainUpdate) : Option (Address × Int) :=
  (update.transfer settings).map fun transfer => (transfer.1, transfer.2.value)

def InRange (update : ChainUpdate) (index : ChainIndex) : Prop :=
  ∀ address value, update.movement settings = some (address, value) →
    negativeAllowed.Holds (index.balance address)

end ChainUpdate

section

variable {before after : FiniteMap Address TransparentTransfers} {address : Address}
  {change : TransparentTransfers → Except ChainError TransparentTransfers}
  {transfer : Option Address} {edit : TransferEdit}

theorem transfersOf_insert (transfers : FiniteMap Address TransparentTransfers)
    (address query : Address) (entry : TransparentTransfers) :
    transfersOf (transfers.insert address entry) query =
      if query = address then entry else transfersOf transfers query := by
  unfold transfersOf
  rw [lookup_insert_ite]
  split <;> rfl

theorem transfersOf_reverted (transfers : FiniteMap Address TransparentTransfers)
    (address query : Address) (entry : TransparentTransfers) :
    transfersOf (if entry.isEmpty then transfers.erase address else transfers.insert address entry)
      query = if query = address then entry else transfersOf transfers query := by
  split
  next empty =>
    unfold transfersOf
    rw [lookup_erase_ite, (isEmpty_iff entry).mp empty]
    split <;> rfl
  · exact transfersOf_insert transfers address query entry

theorem updateTransfers_eq_ok
    (changes : ∀ current next, change current = .ok next ↔ edit.Applied current next ∧
      negativeAllowed.Holds next.balance) : updateTransfers transfer change before = .ok after ↔
      TransferMade (transfer.map fun address => (address, edit)) before after ∧
        ∀ address, transfer = some address →
          negativeAllowed.Holds (transfersOf after address).balance := by
  cases transfer with
  | none => simp [ChainIndex.updateTransfers, TransferMade, eq_comm]
  | some address =>
    simp only [updateTransfers, bind_eq_ok, pure_eq_ok, changes, TransferMade,
      Option.map_some, Option.some.injEq, forall_eq']
    constructor
    · rintro ⟨entry, ⟨applied, inRange⟩, rfl⟩
      refine ⟨⟨entry, applied, rfl⟩, ?_⟩
      rwa [transfersOf_insert, if_pos rfl]
    · rintro ⟨⟨entry, applied, rfl⟩, inRange⟩
      rw [transfersOf_insert, if_pos rfl] at inRange
      exact ⟨entry, ⟨applied, inRange⟩, rfl⟩

theorem revertTransfers_eq_ok
    (changes : ∀ current next, change current = .ok next ↔ edit.Reverted current next ∧
      negativeAllowed.Holds next.balance) : revertTransfers transfer change before = .ok after ↔
      TransferUndone (transfer.map fun address => (address, edit)) before after ∧
        ∀ address, transfer = some address →
          negativeAllowed.Holds (transfersOf after address).balance := by
  cases transfer with
  | none => simp [ChainIndex.revertTransfers, TransferUndone, eq_comm]
  | some address =>
    simp only [revertTransfers, TransferUndone, Option.map_some, Option.some.injEq,
      forall_eq']
    cases found : before.lookup address with
    | none => simp
    | some current =>
      simp only [bind_eq_ok, pure_eq_ok, changes, Option.some.injEq]
      constructor
      · rintro ⟨entry, ⟨reverted, inRange⟩, rfl⟩
        refine ⟨⟨current, entry, rfl, reverted, rfl⟩, ?_⟩
        rwa [transfersOf_reverted, if_pos rfl]
      · rintro ⟨⟨_, entry, rfl, reverted, rfl⟩, inRange⟩
        rw [transfersOf_reverted, if_pos rfl] at inRange
        exact ⟨entry, ⟨reverted, inRange⟩, rfl⟩

end

def moved (address : Address) (movements : List (Address × Int)) : Int :=
  ((movements.filter fun movement => movement.1 = address).map Prod.snd).sum

@[simp] theorem moved_nil (address : Address) : moved address [] = 0 := rfl

theorem moved_cons (address : Address) (movement : Address × Int)
    (movements : List (Address × Int)) : moved address (movement :: movements) =
      (if movement.1 = address then movement.2 else 0) + moved address movements := by
  unfold moved
  by_cases same : movement.1 = address <;> simp [same]

theorem moved_append (address : Address) (first second : List (Address × Int)) :
    moved address (first ++ second) = moved address first + moved address second := by
  simp [moved, filter_append, map_append, sum_append]

theorem start_of_toList {value : Option Value} {start : List Value} (early : start <+: value.toList) :
    start = [] ∨ start = value.toList := by
  cases value with
  | none => exact .inl (List.prefix_nil.mp early)
  | some value =>
    rcases prefix_cons_iff.mp early with empty | ⟨_, rfl, none⟩
    · exact .inl empty
    · rw [prefix_nil.mp none]
      exact .inr rfl

theorem forall_start_append {Holds : List Value → Prop} {first second : List Value} :
    (∀ start, start <+: first ++ second → Holds start) ↔ (∀ start, start <+: first → Holds start) ∧
        ∀ start, start <+: second → Holds (first ++ start) := by
  constructor
  · intro all
    exact ⟨fun start early => all start (early.trans (prefix_append _ _)),
      fun start early => all _ ((prefix_append_right_inj _).mpr early)⟩
  rintro ⟨within, beyond⟩ start early
  rcases prefix_or_prefix_of_prefix early (prefix_append first second) with short | long
  · exact within start short
  · obtain ⟨rest, rfl⟩ := long
    exact beyond rest ((prefix_append_right_inj _).mp early)

namespace ChainIndex

variable {update : ChainUpdate} {before after : ChainIndex}

theorem inRange_of_still (still : update.transfer settings = none) : update.InRange settings after := by
  intro address value movement
  simp [ChainUpdate.movement, still] at movement

theorem inRange_iff {address : Option Address} (edit : TransferEdit)
    (transfer : update.transfer settings = address.map fun address => (address, edit)) :
    update.InRange settings after ↔ ∀ target, address = some target → negativeAllowed.Holds
        (transfersOf after.partialTransparentTransfers target).balance := by
  unfold ChainUpdate.InRange ChainUpdate.movement
  rw [transfer]
  cases address with
  | none => simp
  | some address => simp [balance]

theorem updateChainTipWith_eq_ok (bound : before.partialCumulativeWork < u256Bound) :
    updateChainTipWith settings update before = .ok after ↔
      update.Applied settings before after ∧ update.InRange settings after := by
  cases after
  cases update with
  | work value height hash =>
    cases value with
    | none => simp [updateChainTipWith, applied_iff, ChainUpdate.IsComplete]
    | some value =>
      simp only [updateChainTipWith, ite_eq_ok, ok.injEq]
      constructor
      · rintro ⟨within, ⟨⟩⟩
        exact ⟨⟨trivial, rfl, rfl, rfl, rfl, rfl, rfl, rfl, within⟩, inRange_of_still rfl⟩
      · rintro ⟨⟨_, rfl, rfl, rfl, rfl, rfl, rfl, rfl, within⟩, _⟩
        exact ⟨within, rfl⟩
  | createdOutput outpoint created =>
    cases created with
    | none => simp [updateChainTipWith, applied_iff, ChainUpdate.IsComplete]
    | some created =>
      rw [inRange_iff (.ofCreated outpoint created) rfl]
      simp only [updateChainTipWith, ite_error_eq_ok, Option.not_isSome_iff_eq_none, bind_eq_ok,
        pure_eq_ok, updateTransfers_eq_ok fun _ _ => updateWithCreated_eq_ok, applied_iff,
        ChainUpdate.IsComplete, heightEntry, locationEntry, createdEntry, spentEntry,
        nullifierEntry, addedWork, Entered]
      grind [transfer]
  | spentOutput outpoint spendingTxHash spent =>
    cases spent with
    | none => simp [updateChainTipWith, ite_error_eq_ok, applied_iff, ChainUpdate.IsComplete]
    | some spent =>
      rw [inRange_iff (.ofSpent outpoint spendingTxHash spent) rfl]
      simp only [updateChainTipWith, ite_error_eq_ok, Option.not_isSome_iff_eq_none, bind_eq_ok,
        pure_eq_ok, updateTransfers_eq_ok fun _ _ => updateWithSpent_eq_ok, applied_iff,
        ChainUpdate.IsComplete, heightEntry, locationEntry, createdEntry, spentEntry,
        nullifierEntry, addedWork, Entered]
      grind [transfer]
  -- The others write at most one map and move no balance.
  | _ =>
    rw [and_iff_left (inRange_of_still rfl)]
    simp only [updateChainTipWith, ite_error_eq_ok, Option.not_isSome_iff_eq_none, applied_iff,
      ChainUpdate.IsComplete, heightEntry, locationEntry, createdEntry, spentEntry, nullifierEntry,
      addedWork, transfer, Entered, TransferMade]
    grind

theorem revertChainWith_eq_ok : revertChainWith settings update before = .ok after ↔
      update.Reverted settings before after ∧ update.InRange settings after := by
  cases after
  cases update with
  | work value height hash =>
    cases value with
    | none => simp [revertChainWith, reverted_iff, ChainUpdate.IsComplete]
    | some value =>
      simp only [revertChainWith, ite_eq_ok, ok.injEq]
      constructor
      · rintro ⟨enough, ⟨⟩⟩
        exact ⟨⟨trivial, rfl, rfl, rfl, rfl, rfl, rfl, (Nat.sub_add_cancel enough).symm⟩,
          inRange_of_still rfl⟩
      · rintro ⟨⟨_, rfl, rfl, rfl, rfl, rfl, rfl, work⟩, _⟩
        have sum : before.partialCumulativeWork = _ + value := work
        exact ⟨by omega, by rw [sum, Nat.add_sub_cancel]⟩
  | createdOutput outpoint created =>
    cases created with
    | none => simp [revertChainWith, reverted_iff, ChainUpdate.IsComplete]
    | some created =>
      rw [inRange_iff (.ofCreated outpoint created) rfl]
      simp only [revertChainWith, ite_eq_ok, bind_eq_ok, pure_eq_ok,
        revertTransfers_eq_ok fun _ _ => revertCreated_eq_ok, reverted_iff, ChainUpdate.IsComplete,
        heightEntry, locationEntry, createdEntry, spentEntry, nullifierEntry, addedWork, Removed]
      grind [transfer]
  | spentOutput outpoint spendingTxHash spent =>
    cases spent with
    | none => simp [revertChainWith, ite_eq_ok, reverted_iff, ChainUpdate.IsComplete]
    | some spent =>
      rw [inRange_iff (.ofSpent outpoint spendingTxHash spent) rfl]
      simp only [revertChainWith, ite_eq_ok, bind_eq_ok, pure_eq_ok,
        revertTransfers_eq_ok fun _ _ => revertSpent_eq_ok, reverted_iff, ChainUpdate.IsComplete,
        heightEntry, locationEntry, createdEntry, spentEntry, nullifierEntry, addedWork, Removed]
      grind [transfer]
  | _ =>
    rw [and_iff_left (inRange_of_still rfl)]
    simp only [revertChainWith, reverted_iff, ChainUpdate.IsComplete, heightEntry, locationEntry,
      createdEntry, spentEntry, nullifierEntry, addedWork, transfer, Removed, TransferUndone]
    grind

theorem balance_applied (applied : update.Applied settings before after) (address : Address) :
    after.balance address = before.balance address +
      1 * moved address (update.movement settings).toList := by
  rw [Int.one_mul]
  have made := applied.transfers
  unfold balance ChainUpdate.movement
  generalize update.transfer settings = transfer at made ⊢
  rcases transfer with _ | ⟨target, _⟩
  · simp [show after.partialTransparentTransfers = _ from made]
  obtain ⟨_, applied, inserted⟩ := made
  rw [inserted, transfersOf_insert, Option.map_some, Option.toList_some, moved_cons, moved_nil,
    add_zero]
  by_cases same : address = target
  · rw [if_pos same, if_pos same.symm, applied.balance, same]
  · rw [if_neg same, if_neg (Ne.symm same), add_zero]

theorem balance_reverted (reverted : update.Reverted settings before after) (address : Address) :
    after.balance address = before.balance address +
      -1 * moved address (update.movement settings).toList := by
  rw [Int.neg_one_mul, ← Int.sub_eq_add_neg]
  have undone := reverted.transfers
  unfold balance ChainUpdate.movement
  generalize update.transfer settings = transfer at undone ⊢
  rcases transfer with _ | ⟨target, _⟩
  · simp [show after.partialTransparentTransfers = _ from undone]
  obtain ⟨current, _, found, reverted, changed⟩ := undone
  have now : transfersOf before.partialTransparentTransfers target = current := by
    simp [transfersOf, found]
  rw [changed, transfersOf_reverted, Option.map_some, Option.toList_some, moved_cons, moved_nil,
    add_zero]
  by_cases same : address = target
  · rw [if_pos same, if_pos same.symm, reverted.balance, same, now]
  · rw [if_neg same, if_neg (Ne.symm same), sub_zero]

def movementsOf (settings : ChainSettings History) (updates : List ChainUpdate) :
    List (Address × Int) :=
  updates.filterMap fun update => update.movement settings

theorem movementsOf_cons (updates : List ChainUpdate) : movementsOf settings (update :: updates) =
      (update.movement settings).toList ++ movementsOf settings updates := by
  unfold movementsOf
  cases moving : update.movement settings <;> simp [moving]

variable {updates : List ChainUpdate}

/-- Updating and reverting move the balances in opposite directions. -/
theorem run_moves {Done : ChainUpdate → ChainIndex → ChainIndex → Prop} {direction : Int}
    (moves : ∀ {update before after}, Done update before after → ∀ address, after.balance address =
      before.balance address + direction * moved address (update.movement settings).toList)
    (ran : Journal.Run Done updates before after) (address : Address) : after.balance address =
      before.balance address + direction * moved address (movementsOf settings updates) := by
  induction updates generalizing before with
  | nil =>
    obtain rfl := Journal.run_nil.mp ran
    simp [movementsOf]
  | cons update rest ih =>
    obtain ⟨_, done, ran⟩ := ran
    rw [ih ran, moves done, movementsOf_cons, moved_append, Int.mul_add, add_assoc]

theorem run_balance (ran : Journal.Run (journal settings).Made updates before after)
    (address : Address) :
    after.balance address = before.balance address + moved address (movementsOf settings updates) := by
  rw [run_moves balance_applied ran, Int.one_mul]

theorem run_undone_balance (ran : Journal.Run (journal settings).Undone updates before after)
    (address : Address) :
    after.balance address = before.balance address - moved address (movementsOf settings updates) := by
  rw [run_moves balance_reverted ran, Int.neg_one_mul, ← Int.sub_eq_add_neg]

theorem run_entered [DecidableEq Key] {entry : ChainUpdate → Option (Key × Value)}
    {view : ChainIndex → FiniteMap Key Value}
    (each : ∀ {update before after}, update.Applied settings before after → Entered (entry update)
      (view before) (view after)) (ran : Journal.Run (journal settings).Made updates before after) :
    EnteredAll (updates.filterMap entry) (view before) (view after) := by
  induction updates generalizing before with
  | nil =>
    obtain rfl := Journal.run_nil.mp ran
    exact EnteredAll.nil _
  | cons update rest ih =>
    obtain ⟨_, applied, ran⟩ := ran
    have entered := EnteredAll.cons (each applied) (ih ran)
    cases found : entry update with
    | none =>
      rw [filterMap_cons_none found]
      rwa [found] at entered
    | some pair =>
      rw [filterMap_cons_some found]
      rwa [found] at entered

theorem updateAll_run (valid : before.WellFormed) (updated : updates.foldlM (fun current update =>
      updateChainTipWith settings update current) before = .ok after) :
    Journal.Run (journal settings).Made updates before after := by
  induction updates generalizing before with
  | nil =>
    rw [foldlM_nil, pure_eq_ok] at updated
    exact updated.symm
  | cons update rest ih =>
    rw [foldlM_cons, bind_eq_ok] at updated
    obtain ⟨next, made, updated⟩ := updated
    have applied := ((updateChainTipWith_eq_ok valid.work).mp made).1
    exact ⟨next, applied, ih ((journal_lawful settings).valid valid applied) updated⟩

def BalancesHold (index : ChainIndex) : Prop :=
  ∀ address, negativeAllowed.Holds (index.balance address)

theorem empty_balance (address : Address) : ChainIndex.empty.balance address = 0 := by
  rfl

theorem empty_balancesHold : BalancesHold .empty := by
  intro address
  rw [empty_balance]
  decide

section

variable {step : ChainUpdate → ChainIndex → Except ChainError ChainIndex}

theorem balancesHold_of_inRange {direction : Int} (balances : before.BalancesHold)
    (moves : ∀ address, after.balance address = before.balance address +
      direction * moved address (update.movement settings).toList)
    (inRange : update.InRange settings after) : after.BalancesHold := by
  intro address
  cases movement : update.movement settings with
  | none =>
    rw [moves, movement, Option.toList_none, moved_nil, Int.mul_zero, add_zero]
    exact balances address
  | some moving =>
    by_cases same : moving.1 = address
    · exact inRange address moving.2 (by rw [movement, ← same])
    · rw [moves, movement, Option.toList_some, moved_cons, if_neg same, moved_nil, add_zero,
        Int.mul_zero, add_zero]
      exact balances address

theorem foldlM_eq_ok (Done : ChainUpdate → ChainIndex → ChainIndex → Prop) (direction : Int)
    (Valid : ChainIndex → Prop)
    (steps : ∀ {update before after}, Valid before → (step update before = .ok after ↔ Done update
      before after ∧ update.InRange settings after))
    (valid : ∀ {update before after}, Valid before → Done update before after → Valid after)
    (moves : ∀ {update before after}, Done update before after → ∀ address, after.balance address =
      before.balance address + direction * moved address (update.movement settings).toList)
    (start : Valid before) (balances : before.BalancesHold) :
    updates.foldlM (fun current update => step update current) before = .ok after ↔
      Journal.Run Done updates before after ∧
        ∀ address movements, movements <+: movementsOf settings updates → negativeAllowed.Holds
            (before.balance address + direction * moved address movements) := by
  induction updates generalizing before with
  | nil =>
    rw [foldlM_nil, pure_eq_ok, Journal.run_nil, eq_comm, iff_self_and]
    intro _ address movements early
    rw [movementsOf, filterMap_nil, prefix_nil] at early
    rw [early, moved_nil, Int.mul_zero, add_zero]
    exact balances address
  | cons update rest ih =>
    have shift {next : ChainIndex} (done : Done update before next) (address : Address)
        (movements : List (Address × Int)) :
        before.balance address + direction *
            moved address ((update.movement settings).toList ++ movements) =
          next.balance address + direction * moved address movements := by
      rw [moves done, moved_append, Int.mul_add, add_assoc]
    rw [foldlM_cons, bind_eq_ok]
    constructor
    · rintro ⟨next, made, updated⟩
      obtain ⟨done, inRange⟩ := (steps start).mp made
      obtain ⟨ran, later⟩ := (ih (valid start done)
        (balancesHold_of_inRange balances (moves done) inRange)).mp updated
      refine ⟨⟨next, done, ran⟩, fun address => ?_⟩
      rw [movementsOf_cons, forall_start_append]
      refine ⟨?_, ?_⟩
      · intro movements early
        rcases start_of_toList early with rfl | rfl
        · rw [moved_nil, Int.mul_zero, add_zero]
          exact balances address
        · have here := later address [] nil_prefix
          rwa [← shift done, append_nil] at here
      · intro movements early
        rw [shift done]
        exact later address movements early
    · rintro ⟨⟨next, done, ran⟩, all⟩
      have later (address : Address) (movements : List (Address × Int))
          (early : movements <+: movementsOf settings rest) : negativeAllowed.Holds
            (next.balance address + direction * moved address movements) := by
        have whole := all address
        rw [movementsOf_cons, forall_start_append] at whole
        rw [← shift done]
        exact whole.2 movements early
      have nextBalances : next.BalancesHold := by
        intro address
        have here := later address [] nil_prefix
        rwa [moved_nil, Int.mul_zero, add_zero] at here
      exact ⟨next, (steps start).mpr ⟨done, fun address _ _ => nextBalances address⟩,
        (ih (valid start done) nextBalances).mpr ⟨ran, later⟩⟩

end

theorem updateAll_eq_ok (valid : before.WellFormed) (balances : before.BalancesHold) :
    updates.foldlM (fun current update => updateChainTipWith settings update current) before =
        .ok after ↔ Journal.Run (journal settings).Made updates before after ∧
        ∀ address movements, movements <+: movementsOf settings updates →
          negativeAllowed.Holds (before.balance address + moved address movements) := by
  rw [foldlM_eq_ok (journal settings).Made 1 WellFormed
    (fun start => updateChainTipWith_eq_ok start.work) (journal_lawful settings).valid
    balance_applied valid balances]
  simp

theorem revertAll_eq_ok (balances : before.BalancesHold) :
    updates.foldlM (fun current update => revertChainWith settings update current) before =
        .ok after ↔ Journal.Run (journal settings).Undone updates before after ∧
        ∀ address movements, movements <+: movementsOf settings updates →
          negativeAllowed.Holds (before.balance address - moved address movements) := by
  rw [foldlM_eq_ok (journal settings).Undone (-1) (fun _ => True) (fun _ => revertChainWith_eq_ok)
    (fun _ _ => trivial) balance_reverted trivial balances]
  simp only [Int.neg_one_mul, ← Int.sub_eq_add_neg]

end ChainIndex

namespace ContextuallyVerifiedBlock

variable (settings : ChainSettings History) (block : ContextuallyVerifiedBlock)

/-- The addresses and values a block moves, in the order in which it is added and reverted. -/
def movements : List (Address × Int) :=
  movementsOf settings (block.updates settings)

theorem transactionReverts_perm (entry : Nat × Transaction × TransactionHash) :
    (block.transactionReverts settings entry).Perm (block.transactionUpdates settings entry) := by
  obtain ⟨_, transaction, hash⟩ := entry
  simp only [transactionReverts, transactionUpdates]
  split
  · exact List.Perm.refl _
  rw [append_assoc _ (block.createdOutputs transaction hash)]
  generalize block.createdOutputs transaction hash ++ block.spentInputs transaction hash = moves
  generalize shieldedUpdates settings transaction hash = shielded
  refine perm_append_comm.trans ?_
  rw [append_assoc]
  exact List.Perm.append_left _ perm_append_comm

theorem reverts_perm : (block.reverts settings).Perm (block.updates settings) := by
  refine (List.Perm.swap _ _ _).trans (List.Perm.cons _ (List.Perm.cons _ ?_))
  exact List.Perm.flatMap_left _ fun entry _ => block.transactionReverts_perm settings entry

theorem transactionUpdates_heights (entry : Nat × Transaction × TransactionHash) :
    (block.transactionUpdates settings entry).filterMap ChainUpdate.heightEntry = [] := by
  rw [filterMap_eq_nil_iff]
  intro update member
  simp only [transactionUpdates] at member
  split at member
  · obtain rfl := mem_singleton.mp member
    rfl
  simp only [shieldedUpdates, revealedNullifiers, createdOutputs, spentInputs, mem_append,
    mem_map, mem_singleton] at member
  rcases member with ((((((⟨_, _, rfl⟩ | ⟨_, _, rfl⟩) | ⟨_, _, rfl⟩) | ⟨_, _, rfl⟩) | rfl) |
    ⟨_, _, rfl⟩) | ⟨_, _, rfl⟩) <;> rfl

theorem updates_heights :
    (block.updates settings).filterMap ChainUpdate.heightEntry = [(block.hash, block.height)] := by
  have filed : (ChainUpdate.blockHash block.hash block.height).heightEntry =
      some (block.hash, block.height) := rfl
  unfold updates
  rw [filterMap_cons_none (by cases block.work <;> rfl), filterMap_cons_some filed,
    filterMap_flatMap]
  simp [block.transactionUpdates_heights settings]

theorem shieldedUpdates_still (transaction : Transaction) (hash : TransactionHash) :
    movementsOf settings (shieldedUpdates settings transaction hash) = [] := by
  have still (pool : ShieldedPool) :
      movementsOf settings (revealedNullifiers settings transaction hash pool) = [] := by
    unfold movementsOf revealedNullifiers
    rw [filterMap_eq_nil_iff]
    intro update member
    obtain ⟨_, _, rfl⟩ := mem_map.mp member
    rfl
  simp only [movementsOf] at still
  simp [movementsOf, shieldedUpdates, filterMap_append, still]

theorem transactionReverts_movements (entry : Nat × Transaction × TransactionHash) :
    movementsOf settings (block.transactionReverts settings entry) =
      movementsOf settings (block.transactionUpdates settings entry) := by
  obtain ⟨index, transaction, hash⟩ := entry
  have shielded := shieldedUpdates_still settings transaction hash
  have location : movementsOf settings
      [.transactionLocation hash ⟨block.height, index⟩] = [] := rfl
  simp only [movementsOf] at shielded location
  simp only [transactionReverts, transactionUpdates]
  split
  · rfl
  · simp only [movementsOf, filterMap_append, shielded, location, append_nil, nil_append]

theorem reverts_movements :
    movementsOf settings (block.reverts settings) = block.movements settings := by
  have each : ∀ entries : List (Nat × Transaction × TransactionHash),
      movementsOf settings (entries.flatMap (block.transactionReverts settings)) =
        movementsOf settings (entries.flatMap (block.transactionUpdates settings)) := by
    have same := block.transactionReverts_movements settings
    simp only [movementsOf] at same
    simp [movementsOf, filterMap_flatMap, same]
  have still (update : ChainUpdate) (updates : List ChainUpdate)
      (idle : update.movement settings = none) :
      movementsOf settings (update :: updates) =
        movementsOf settings updates := by
    rw [movementsOf_cons, idle, Option.toList_none, nil_append]
  have idle : (ChainUpdate.work block.work block.height block.hash).movement settings = none := by
    cases block.work <;> rfl
  rw [movements, reverts, updates, still _ _ rfl, still _ _ idle, still _ _ idle, still _ _ rfl, each]

end ContextuallyVerifiedBlock

namespace ChainIndex

variable {block : ContextuallyVerifiedBlock} {before after : ChainIndex}

section

variable (valid : before.WellFormed) (updated : before.updateWithBlock settings block = .ok after)
include valid updated

theorem updateWithBlock_run :
    Journal.Run (journal settings).Made (block.updates settings) before after :=
  updateAll_run valid updated

theorem updateWithBlock_wellFormed : after.WellFormed :=
  (journal_lawful settings).run_valid valid (updateWithBlock_run valid updated)

theorem updateWithBlock_heights :
    EnteredAll [(block.hash, block.height)] before.heightByHash after.heightByHash := by
  have entered : EnteredAll ((block.updates settings).filterMap ChainUpdate.heightEntry)
      before.heightByHash after.heightByHash :=
    run_entered (fun applied => applied.heights) (updateWithBlock_run valid updated)
  rwa [block.updates_heights settings] at entered

end

theorem updateWithBlock_balancesHold (valid : before.WellFormed) (balances : before.BalancesHold)
    (updated : before.updateWithBlock settings block = .ok after) : after.BalancesHold := by
  obtain ⟨ran, inRange⟩ := (updateAll_eq_ok valid balances).mp updated
  intro address
  rw [run_balance ran]
  exact inRange address _ (prefix_refl _)

/-- No balance leaves the range of amounts while the block's movements are taken back in the
order in which they were made. -/
def Reversible (settings : ChainSettings History) (block : ContextuallyVerifiedBlock)
    (index : ChainIndex) : Prop :=
  ∀ address movements, movements <+: block.movements settings →
    negativeAllowed.Holds (index.balance address - moved address movements)

theorem revertBlock_eq_ok (balances : before.BalancesHold) :
    before.revertBlock settings block = .ok after ↔
      Journal.Run (journal settings).Undone (block.reverts settings) before after ∧
        Reversible settings block before := by
  rw [revertBlock, revertAll_eq_ok balances, block.reverts_movements settings]
  rfl

theorem revertBlock_of_update (valid : before.WellFormed)
    (updated : before.updateWithBlock settings block = .ok after)
    (balances : after.BalancesHold) (reversible : Reversible settings block after) :
    after.revertBlock settings block = .ok before :=
  (revertBlock_eq_ok balances).mpr
    ⟨(journal_lawful settings).undo_run (block.reverts_perm settings) valid
      (updateWithBlock_run valid updated), reversible⟩

end ChainIndex

end Zakura.NonFinalized
