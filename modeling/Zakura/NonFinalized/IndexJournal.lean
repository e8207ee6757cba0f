import Zakura.NonFinalized.IndexCore
import Zakura.Lib.Journal

/-!
The index updates as a journal without bounds on balances: every update adds fresh
entries, so updates can be reordered, and reverting a block in any order takes back
exactly what the block added.
-/

namespace Zakura.NonFinalized

open HeaderChain (Hash u256Bound)
open FiniteMap Fallible Finmap Multiset

variable {History : Type}

section

variable {Member : Type} [DecidableEq Member]

def MemberEntered (member : Option Member) (before after : Finset Member) : Prop :=
  match member with
  | none => after = before
  | some member => member ∉ before ∧ after = insert member before

def MemberRemoved (member : Option Member) (before after : Finset Member) : Prop :=
  match member with
  | none => after = before
  | some member => member ∈ before ∧ after = before.erase member

theorem MemberEntered.removed {member : Option Member} {before after : Finset Member}
    (entered : MemberEntered member before after) : MemberRemoved member after before := by
  cases member with
  | none => exact entered.symm
  | some member =>
    obtain ⟨fresh, rfl⟩ := entered
    exact ⟨Finset.mem_insert_self _ _, (Finset.erase_insert fresh).symm⟩

theorem MemberEntered.swap {first second : Option Member} {start middle finish : Finset Member}
    (early : MemberEntered first start middle) (late : MemberEntered second middle finish) :
    ∃ other, MemberEntered second start other ∧ MemberEntered first other finish := by
  cases first with
  | none =>
    obtain rfl : middle = start := early
    exact ⟨finish, late, rfl⟩
  | some firstMember =>
    cases second with
    | none =>
      obtain rfl : finish = middle := late
      exact ⟨start, rfl, early⟩
    | some secondMember =>
      obtain ⟨firstFresh, rfl⟩ := early
      obtain ⟨secondFresh, rfl⟩ := late
      rw [Finset.mem_insert, not_or] at secondFresh
      refine ⟨_, ⟨secondFresh.2, rfl⟩, ?_, Finset.insert_comm _ _ _⟩
      rw [Finset.mem_insert, not_or]
      exact ⟨Ne.symm secondFresh.1, firstFresh⟩

end

structure TransferEdit where
  value : Int
  txId : TransactionHash
  created : Option (OutputLocation × Output)
  spent : Option OutputLocation

namespace TransferEdit

def ofCreated (outpoint : OutPoint) (created : OrderedUtxo) : TransferEdit where
  value := created.utxo.output.value.zatoshis
  txId := outpoint.hash
  created := some (.fromOutpoint created.transactionLocation outpoint, created.utxo.output)
  spent := none

def ofSpent (outpoint : OutPoint) (spendingTxHash : TransactionHash) (spent : OrderedUtxo) :
    TransferEdit where
  value := -spent.utxo.output.value.zatoshis
  txId := spendingTxHash
  created := none
  spent := some (.fromOutpoint spent.transactionLocation outpoint)

structure Applied (edit : TransferEdit) (before after : TransparentTransfers) : Prop where
  balance : after.balance = before.balance + edit.value
  txIds : after.txIds = edit.txId ::ₘ before.txIds
  created : Entered edit.created before.createdUtxos after.createdUtxos
  spent : MemberEntered edit.spent before.spentUtxos after.spentUtxos

structure Reverted (edit : TransferEdit) (before after : TransparentTransfers) : Prop where
  balance : after.balance = before.balance - edit.value
  present : edit.txId ∈ before.txIds
  txIds : after.txIds = before.txIds.erase edit.txId
  created : Removed (edit.created.map Prod.fst) before.createdUtxos after.createdUtxos
  spent : MemberRemoved edit.spent before.spentUtxos after.spentUtxos

variable {edit first second : TransferEdit} {before after start middle finish : TransparentTransfers}

theorem Applied.reverted (applied : edit.Applied before after) : edit.Reverted after before := by
  refine ⟨by rw [applied.balance]; omega, ?_, ?_, applied.created.removed, applied.spent.removed⟩
  · rw [applied.txIds]
    exact mem_cons_self _ _
  · rw [applied.txIds, erase_cons_head]

theorem Applied.swap (early : first.Applied start middle) (late : second.Applied middle finish) :
    ∃ other, second.Applied start other ∧ first.Applied other finish := by
  obtain ⟨created, createdEarly, createdLate⟩ := early.created.swap late.created
  obtain ⟨spent, spentEarly, spentLate⟩ := early.spent.swap late.spent
  refine ⟨⟨start.balance + second.value, second.txId ::ₘ start.txIds, created, spent⟩,
    ⟨rfl, rfl, createdEarly, spentEarly⟩, ⟨?_, ?_, createdLate, spentLate⟩⟩
  · rw [late.balance, early.balance]
    dsimp only
    omega
  · rw [late.txIds, early.txIds, cons_swap]

theorem Applied.not_isEmpty (applied : edit.Applied before after) : after.isEmpty = false := by
  have some : after.txIds ≠ 0 := by
    rw [applied.txIds]
    exact cons_ne_zero
  simp [TransparentTransfers.isEmpty, some]

end TransferEdit

def transfersOf (transfers : FiniteMap Address TransparentTransfers) (address : Address) :
    TransparentTransfers :=
  (transfers.lookup address).getD .empty

def NoEmptyTransfers (transfers : FiniteMap Address TransparentTransfers) : Prop :=
  ∀ address entry, transfers.lookup address = some entry → entry.isEmpty = false

def TransferMade (transfer : Option (Address × TransferEdit))
    (before after : FiniteMap Address TransparentTransfers) : Prop :=
  match transfer with
  | none => after = before
  | some (address, edit) => ∃ entry, edit.Applied (transfersOf before address) entry ∧
      after = before.insert address entry

def TransferUndone (transfer : Option (Address × TransferEdit))
    (before after : FiniteMap Address TransparentTransfers) : Prop :=
  match transfer with
  | none => after = before
  | some (address, edit) => ∃ current entry, before.lookup address = some current ∧
      edit.Reverted current entry ∧
      after = if entry.isEmpty then before.erase address else before.insert address entry

section

variable {transfer first second : Option (Address × TransferEdit)}
  {before after start middle finish : FiniteMap Address TransparentTransfers}

theorem isEmpty_iff (transfers : TransparentTransfers) :
    transfers.isEmpty = true ↔ transfers = .empty := by
  obtain ⟨_, _, _, _⟩ := transfers
  simp [TransparentTransfers.isEmpty, TransparentTransfers.empty]

section

variable (full : NoEmptyTransfers before) (made : TransferMade transfer before after)
include full made

theorem TransferMade.noEmpty : NoEmptyTransfers after := by
  rcases transfer with _ | ⟨_, _⟩
  · obtain rfl : after = before := made
    exact full
  obtain ⟨_, applied, rfl⟩ := made
  exact forall_lookup_insert full applied.not_isEmpty

theorem TransferMade.undone : TransferUndone transfer after before := by
  rcases transfer with _ | ⟨address, _⟩
  · exact Eq.symm made
  obtain ⟨entry, applied, rfl⟩ := made
  refine ⟨entry, transfersOf before address, lookup_insert before, applied.reverted, ?_⟩
  cases found : before.lookup address with
  | none =>
    have empty : transfersOf before address = .empty := by simp [transfersOf, found]
    rw [if_pos ((isEmpty_iff _).mpr empty), erase_insert found]
  | some current =>
    have same : transfersOf before address = current := by simp [transfersOf, found]
    rw [same, full address current found, if_neg (by simp), insert_insert,
      insert_lookup found]

end

theorem TransferMade.swap (early : TransferMade first start middle)
    (late : TransferMade second middle finish) :
    ∃ other, TransferMade second start other ∧ TransferMade first other finish := by
  rcases first with _ | ⟨firstAddress, _⟩
  · obtain rfl : middle = start := early
    exact ⟨finish, late, rfl⟩
  rcases second with _ | ⟨secondAddress, _⟩
  · obtain rfl : finish = middle := late
    exact ⟨start, rfl, early⟩
  obtain ⟨firstEntry, firstApplied, rfl⟩ := early
  obtain ⟨secondEntry, secondApplied, rfl⟩ := late
  by_cases same : secondAddress = firstAddress
  · subst secondAddress
    have current : transfersOf (start.insert firstAddress firstEntry) firstAddress =
        firstEntry := by simp [transfersOf, lookup_insert]
    rw [current] at secondApplied
    obtain ⟨other, otherApplied, lastApplied⟩ := firstApplied.swap secondApplied
    refine ⟨_, ⟨other, otherApplied, rfl⟩, secondEntry, ?_, ?_⟩
    · simpa [transfersOf, lookup_insert] using lastApplied
    · rw [insert_insert, insert_insert]
  · have current : transfersOf (start.insert firstAddress firstEntry) secondAddress =
        transfersOf start secondAddress := by
      simp [transfersOf, lookup_insert_of_ne _ same]
    rw [current] at secondApplied
    refine ⟨_, ⟨secondEntry, secondApplied, rfl⟩, firstEntry, ?_,
      insert_insert_of_ne start (Ne.symm same)⟩
    simpa [transfersOf, lookup_insert_of_ne _ (Ne.symm same)] using firstApplied

end

namespace ChainUpdate

variable (settings : ChainSettings History)

def heightEntry : ChainUpdate → Option (Hash × Nat)
  | .blockHash hash height => some (hash, height)
  | _ => none

def locationEntry : ChainUpdate → Option (TransactionHash × TransactionLocation)
  | .transactionLocation hash location => some (hash, location)
  | _ => none

def createdEntry : ChainUpdate → Option (OutPoint × OrderedUtxo)
  | .createdOutput outpoint (some created) => some (outpoint, created)
  | _ => none

def spentEntry : ChainUpdate → Option (OutPoint × Option TransactionHash)
  | .spentOutput outpoint spendingTxHash (some _) =>
    some (outpoint, settings.spendingTransactionId spendingTxHash)
  | _ => none

def nullifierEntry : ChainUpdate → Option ((ShieldedPool × Nullifier) × Option TransactionHash)
  | .nullifier pool value revealing => some ((pool, value), revealing)
  | _ => none

def addedWork : ChainUpdate → Nat
  | .work (some value) _ _ => value
  | _ => 0

def transfer : ChainUpdate → Option (Address × TransferEdit)
  | .createdOutput outpoint (some created) =>
    (settings.indexedAddress created.utxo.output).map fun address =>
      (address, .ofCreated outpoint created)
  | .spentOutput outpoint spendingTxHash (some spent) =>
    (settings.indexedAddress spent.utxo.output).map fun address =>
      (address, .ofSpent outpoint spendingTxHash spent)
  | _ => none

/-- The parts of a block that are always refused: unknown outputs, unknown work, old versions. -/
def IsComplete : ChainUpdate → Prop
  | .work none _ _ | .createdOutput _ none | .spentOutput _ _ none | .unsupportedVersion => False
  | _ => True

@[mk_iff]
structure Applied (update : ChainUpdate) (before after : ChainIndex) : Prop where
  complete : update.IsComplete
  heights : Entered update.heightEntry before.heightByHash after.heightByHash
  locations : Entered update.locationEntry before.txLocByHash after.txLocByHash
  created : Entered update.createdEntry before.createdUtxos after.createdUtxos
  spent : Entered (update.spentEntry settings) before.spentUtxos after.spentUtxos
  nullifiers : Entered update.nullifierEntry before.nullifiers after.nullifiers
  transfers : TransferMade (update.transfer settings) before.partialTransparentTransfers
    after.partialTransparentTransfers
  work : after.partialCumulativeWork = before.partialCumulativeWork + update.addedWork
  workBound : after.partialCumulativeWork < u256Bound

@[mk_iff]
structure Reverted (update : ChainUpdate) (before after : ChainIndex) : Prop where
  complete : update.IsComplete
  heights : Removed (update.heightEntry.map Prod.fst) before.heightByHash after.heightByHash
  locations : Removed (update.locationEntry.map Prod.fst) before.txLocByHash after.txLocByHash
  created : Removed (update.createdEntry.map Prod.fst) before.createdUtxos after.createdUtxos
  spent : Removed ((update.spentEntry settings).map Prod.fst) before.spentUtxos after.spentUtxos
  nullifiers : Removed (update.nullifierEntry.map Prod.fst) before.nullifiers after.nullifiers
  transfers : TransferUndone (update.transfer settings) before.partialTransparentTransfers
    after.partialTransparentTransfers
  work : before.partialCumulativeWork = after.partialCumulativeWork + update.addedWork

end ChainUpdate

namespace ChainIndex

variable (settings : ChainSettings History)

/-- What every chain keeps: no empty address history, and a work that fits in 256 bits. -/
structure WellFormed (index : ChainIndex) : Prop where
  transfers : NoEmptyTransfers index.partialTransparentTransfers
  work : index.partialCumulativeWork < u256Bound

theorem empty_wellFormed : WellFormed .empty := by
  refine ⟨?_, by simp [ChainIndex.empty, u256Bound]⟩
  intro address entry found
  simp [ChainIndex.empty, lookup_empty] at found

def journal : Journal ChainIndex ChainUpdate where
  Made := ChainUpdate.Applied settings
  Undone := ChainUpdate.Reverted settings

theorem journal_lawful : (journal settings).Lawful WellFormed where
  valid := by
    intro update before after valid applied
    exact ⟨applied.transfers.noEmpty valid.transfers, applied.workBound⟩
  undo := by
    intro update before after valid applied
    exact ⟨applied.complete, applied.heights.removed, applied.locations.removed,
      applied.created.removed, applied.spent.removed, applied.nullifiers.removed,
      applied.transfers.undone valid.transfers, applied.work⟩
  swap := by
    intro first second start middle finish early late
    obtain ⟨heights, heightsEarly, heightsLate⟩ := early.heights.swap late.heights
    obtain ⟨locations, locationsEarly, locationsLate⟩ := early.locations.swap late.locations
    obtain ⟨created, createdEarly, createdLate⟩ := early.created.swap late.created
    obtain ⟨spent, spentEarly, spentLate⟩ := early.spent.swap late.spent
    obtain ⟨nullifiers, nullifiersEarly, nullifiersLate⟩ := early.nullifiers.swap late.nullifiers
    obtain ⟨transfers, transfersEarly, transfersLate⟩ := early.transfers.swap late.transfers
    have earlyWork := early.work
    have lateWork := late.work
    have bound := late.workBound
    refine ⟨{
        heightByHash := heights
        txLocByHash := locations
        createdUtxos := created
        spentUtxos := spent
        nullifiers := nullifiers
        partialTransparentTransfers := transfers
        partialCumulativeWork := start.partialCumulativeWork + second.addedWork },
      ⟨late.complete, heightsEarly, locationsEarly, createdEarly, spentEarly, nullifiersEarly,
        transfersEarly, rfl, ?_⟩,
      ⟨early.complete, heightsLate, locationsLate, createdLate, spentLate, nullifiersLate,
        transfersLate, ?_, bound⟩⟩
    · dsimp only
      omega
    · dsimp only
      omega

end ChainIndex

end Zakura.NonFinalized
