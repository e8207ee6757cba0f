import Zakura.NonFinalized.ChainFork
import Zakura.NonFinalized.ProposalCore

/-!
A solved block finished from the chain of its proposal: the result is what pushing
the solved block onto the parent chain gives, and only blocks that share the
parent, the transactions and the difficulty threshold are finished this way.
-/

namespace Zakura.NonFinalized

open HeaderChain (Hash)
open FiniteMap Fallible List Except ChainIndex Finmap ContextuallyVerifiedBlock Option

variable {solved verified : SemanticallyVerifiedBlock} {proposal : ContextuallyVerifiedBlock}
  {History : Type}

theorem assert_eq_ok {condition : Prop} [Decidable condition] {message : String}
    {nothing : Unit} : assert condition message = .ok nothing ↔ condition := by
  simp [assert]

section

variable {settings : ChainSettings History}

namespace ChainIndex

def withHeights (heights : FiniteMap Hash Nat) (index : ChainIndex) : ChainIndex :=
  { index with heightByHash := heights }

variable {update : ChainUpdate} {heights : FiniteMap Hash Nat}

theorem updateChainTipWith_withHeights (other : update.heightEntry = none) (index : ChainIndex) :
    updateChainTipWith settings update (index.withHeights heights) =
      (updateChainTipWith settings update index).map (withHeights heights) := by
  have mapped (condition : Prop) [Decidable condition] (first second : Except ChainError ChainIndex) :
      (if condition then first else second).map (withHeights heights) =
        if condition then first.map (withHeights heights) else second.map (withHeights heights) :=
    apply_ite _ _ _ _
  cases update with
  | work work height hash =>
    cases work with
    | none => rfl
    | some work => simp only [updateChainTipWith, mapped]; rfl
  | blockHash hash height => cases other
  | nullifier | transactionLocation => simp only [updateChainTipWith, mapped]; rfl
  | createdOutput outpoint created =>
    cases created with
    | none => rfl
    | some created =>
      simp only [updateChainTipWith, mapped]
      cases transferred : updateTransfers (settings.indexedAddress created.utxo.output)
        (·.updateWithCreated outpoint created) index.partialTransparentTransfers <;>
        simp only [withHeights, transferred] <;> rfl
  | spentOutput outpoint spendingTxHash spent =>
    simp only [updateChainTipWith, mapped]
    cases spent with
    | none => rfl
    | some spent =>
      cases transferred : updateTransfers (settings.indexedAddress spent.utxo.output)
        (·.updateWithSpent outpoint spendingTxHash spent) index.partialTransparentTransfers <;>
        simp only [withHeights, transferred] <;> rfl
  | unsupportedVersion => rfl

theorem updateAll_withHeights {updates : List ChainUpdate}
    (others : ∀ update ∈ updates, update.heightEntry = none) (index : ChainIndex) :
    updates.foldlM (fun current update => updateChainTipWith settings update current)
        (index.withHeights heights) =
      (updates.foldlM (fun current update => updateChainTipWith settings update current) index).map
        (withHeights heights) := by
  induction updates generalizing index with
  | nil => rfl
  | cons update rest ih =>
    rw [foldlM_cons, foldlM_cons, updateChainTipWith_withHeights (others update mem_cons_self)]
    cases updateChainTipWith settings update index with
    | error error => rfl
    | ok next => exact ih (fun other member => others other (mem_cons_of_mem _ member)) next

end ChainIndex

/-- A block that differs from a proposal in its hash, its receipt order, and header fields that
neither name the parent nor set the difficulty. -/
structure ContextuallyVerifiedBlock.Replaces (solved proposal : ContextuallyVerifiedBlock) :
    Prop where
  transactions : solved.block.transactions = proposal.block.transactions
  previousBlockHash :
    solved.block.header.previousBlockHash = proposal.block.header.previousBlockHash
  difficultyThreshold :
    solved.block.header.difficultyThreshold = proposal.block.header.difficultyThreshold
  height : solved.height = proposal.height
  newOutputs : solved.newOutputs = proposal.newOutputs
  spentOutputs : solved.spentOutputs = proposal.spentOutputs
  transactionHashes : solved.transactionHashes = proposal.transactionHashes
  chainValuePoolChange : solved.chainValuePoolChange = proposal.chainValuePoolChange

variable {solved : ContextuallyVerifiedBlock}

theorem ContextuallyVerifiedBlock.Replaces.transactionUpdates
    (replaces : solved.Replaces proposal) :
    solved.indexedTransactions.flatMap (solved.transactionUpdates settings) =
      proposal.indexedTransactions.flatMap (proposal.transactionUpdates settings) := by
  have indexed : solved.indexedTransactions = proposal.indexedTransactions := by
    simp [indexedTransactions, replaces.transactions, replaces.transactionHashes]
  have updates : solved.transactionUpdates settings = proposal.transactionUpdates settings := by
    funext entry
    simp [ContextuallyVerifiedBlock.transactionUpdates, createdOutputs, spentInputs,
      replaces.height, replaces.newOutputs, replaces.spentOutputs]
  rw [indexed, updates]

theorem ContextuallyVerifiedBlock.Replaces.noteCommitments (replaces : solved.Replaces proposal)
    (pool : ShieldedPool) :
    proposal.block.noteCommitments pool = solved.block.noteCommitments pool := by
  simp [Block.noteCommitments, replaces.transactions]

theorem ContextuallyVerifiedBlock.transactionUpdates_other (block : ContextuallyVerifiedBlock)
    (settings : ChainSettings History) :
    ∀ update ∈ block.indexedTransactions.flatMap (block.transactionUpdates settings),
      update.heightEntry = none := by
  intro update member
  obtain ⟨entry, _, made⟩ := mem_flatMap.mp member
  exact filterMap_eq_nil_iff.mp (block.transactionUpdates_heights settings entry) update made

namespace ChainIndex

variable {before after : ChainIndex}

theorem updateWithBlock_replaces (replaces : solved.Replaces proposal)
    (updated : before.updateWithBlock settings proposal = .ok after) :
    before.heightByHash.lookup proposal.hash = none ∧
      after.heightByHash = before.heightByHash.insert proposal.hash proposal.height ∧
      before.updateWithBlock settings solved =
        if (before.heightByHash.lookup solved.hash).isSome then
          .error (.panic "block heights must be unique within a single chain")
        else .ok (after.withHeights (before.heightByHash.insert solved.hash solved.height)) := by
  have work : solved.work = proposal.work := by
    unfold work
    rw [replaces.difficultyThreshold]
  simp only [updateWithBlock, updates, foldlM_cons, bind_eq_ok]
    at updated
  obtain ⟨worked, added, filed, entered, rest⟩ := updated
  have sameHeights : worked.heightByHash = before.heightByHash := by
    unfold updateChainTipWith at added
    split at added <;> simp_all [ite_eq_ok]
    rw [← added.2]
  have solvedWork : updateChainTipWith settings (.work solved.work solved.height solved.hash)
      before = .ok worked := by
    rw [work]
    cases found : proposal.work with
    | none => rw [found] at added; cases added
    | some amount =>
      rw [found] at added
      simp only [updateChainTipWith, ite_eq_ok] at added ⊢
      exact added
  simp only [updateChainTipWith, ite_error_eq_ok, sameHeights, not_isSome_iff_eq_none,
    ok.injEq] at entered
  obtain ⟨fresh, isFiled⟩ := entered
  have isFiled : filed = worked.withHeights
      (before.heightByHash.insert proposal.hash proposal.height) := isFiled.symm
  have others := proposal.transactionUpdates_other settings
  rw [isFiled, updateAll_withHeights others] at rest
  cases plain : (proposal.indexedTransactions.flatMap
      (proposal.transactionUpdates settings)).foldlM
      (fun current update => updateChainTipWith settings update current) worked with
  | error error => rw [plain] at rest; cases rest
  | ok last =>
    rw [plain] at rest
    have isLast : after = last.withHeights
        (before.heightByHash.insert proposal.hash proposal.height) := by
      injection rest with same
      exact same.symm
    refine ⟨fresh, by rw [isLast]; rfl, ?_⟩
    have filing : updateChainTipWith settings (.blockHash solved.hash solved.height) worked =
        if (before.heightByHash.lookup solved.hash).isSome then
          .error (.panic "block heights must be unique within a single chain")
        else .ok (worked.withHeights
          (before.heightByHash.insert solved.hash solved.height)) := by
      rw [← sameHeights]
      rfl
    simp only [updateWithBlock, updates, foldlM_cons, solvedWork]
    change updateChainTipWith settings (.blockHash solved.hash solved.height) worked >>= _ = _
    rw [filing]
    split
    · rfl
    rw [replaces.transactionUpdates]
    change foldlM _ (worked.withHeights _) _ = _
    rw [updateAll_withHeights others, plain, isLast]
    rfl

end ChainIndex

end

section

variable [CommitmentHasher] {pool : ShieldedPool} {first second : Block} {height : Nat}

variable {tipHeight : Option Nat} {index next other : TreeIndex}
  {subtrees nextSubtrees otherSubtrees : Subtrees}

section

variable (same : first.noteCommitments pool = second.noteCommitments pool)
  (pushed : PoolPushed pool first height tipHeight index subtrees next nextSubtrees)
include same pushed

theorem PoolPushed.congr :
    PoolPushed pool second height tipHeight index subtrees next nextSubtrees := by
  obtain ⟨current, updated, tip, _, added, completed⟩ := pushed
  exact ⟨current, updated, tip, by rwa [updatePoolTree, ← same], added, completed⟩

theorem PoolPushed.sameTip {tree otherTree : NoteCommitmentTree}
    (again : PoolPushed pool second height tipHeight index subtrees other otherSubtrees)
    (found : next.treeForTip = some tree) (otherFound : other.treeForTip = some otherTree) :
    otherTree = tree := by
  obtain ⟨_, updated, tip, made, added, _⟩ := pushed.congr same
  obtain ⟨_, otherUpdated, otherTip, otherMade, otherAdded, _⟩ := again
  obtain rfl := mem_unique tip otherTip
  obtain rfl : updated = otherUpdated := ok.inj (made.symm.trans otherMade)
  obtain rfl : next = other := ok.inj (added.symm.trans otherAdded)
  exact mem_unique otherFound found

end

end

namespace Chain

variable [CommitmentHasher] {settings : ChainSettings History} {solved : ContextuallyVerifiedBlock}
  {parent child next : Chain History} {parentHistory solvedTree : History}
  {sapling orchard ironwood : NoteCommitmentTree} {tree : History}

theorem Pushed.lastKey (pushed : Pushed settings proposal parent child)
    (above : ∀ height, (parent.blocks.lookup height).isSome → height < proposal.height) :
    child.maxBlockHeight = some proposal.height := by
  refine lastKey_of_greatest ?_ fun height found => ?_
  · rw [pushed.blocks, lookup_insert]
    rfl
  rw [pushed.blocks, lookup_insert_ite] at found
  split at found
  · omega
  · exact le_of_lt (above height found)

def withTip (solved : ContextuallyVerifiedBlock) (heights : FiniteMap Hash Nat) (tree : History)
    (info : BlockInfo) (chain : Chain History) : Chain History :=
  { chain with
    blocks := chain.blocks.insert solved.height solved
    index := chain.index.withHeights (heights.insert solved.hash solved.height)
    historyTreesByHeight := chain.historyTreesByHeight.insert solved.height tree
    blockInfoByHeight := chain.blockInfoByHeight.insert solved.height info }

section

variable (pushed : Pushed settings proposal parent child) (replaces : solved.Replaces proposal)
include pushed replaces

section

variable
  (history : HistoryPushed settings proposal parent child parentHistory tree sapling orchard ironwood)
include history

theorem finishPreparedTip_eq_ok
    (above : ∀ height, (parent.blocks.lookup height).isSome → height < proposal.height) :
    child.finishPreparedTip settings solved parentHistory = .ok next ↔
      parent.index.heightByHash.lookup solved.hash = none ∧
      ∃ solvedTree, settings.pushHistory parentHistory solved.block (sapling.root .sapling)
          (orchard.root .orchard) (ironwood.root .ironwood) = .ok solvedTree ∧
        child.withTip solved parent.index.heightByHash solvedTree
          ⟨child.chainValuePools, settings.serializedSize solved.block % 2 ^ 32⟩ = next := by
  have tip := pushed.lastKey above
  obtain ⟨fresh, heights, _⟩ := updateWithBlock_replaces replaces pushed.index
  have held : child.blocks.lookup solved.height = some proposal := by
    rw [pushed.blocks, replaces.height, lookup_insert]
  have filed : child.index.heightByHash.lookup proposal.hash = some solved.height := by
    rw [heights, replaces.height, lookup_insert]
  have remaining : child.index.heightByHash.erase proposal.hash = parent.index.heightByHash := by
    rw [heights, erase_insert fresh]
  have treeHeld : child.historyTreesByHeight.lookup solved.height = some tree := by
    rw [history.histories, replaces.height, lookup_insert]
  obtain ⟨_, _, infos⟩ := updateValuePools_eq_ok.mp pushed.pools
  have infoHeld : (child.blockInfoByHeight.lookup solved.height).isSome := by
    rw [infos, replaces.height, lookup_insert]
    rfl
  obtain ⟨_, isInfo⟩ := isSome_iff_exists.mp infoHeld
  simp only [finishPreparedTip, bind_eq_ok, expect_eq_ok, assert_eq_ok, mapError_eq_ok, pure_eq_ok,
    tip, history.saplingTree, history.orchardTree, history.ironwoodTree, held, filed, remaining,
    treeHeld, isInfo, replaces.previousBlockHash, replaces.difficultyThreshold, replaces.height,
    insert_erase_self, some.injEq, isNone_iff_eq_none, exists_eq_left', exists_const, true_and,
    withTip, withHeights]

theorem Pushed.replace (fresh : parent.index.heightByHash.lookup solved.hash = none)
    (treePushed : settings.pushHistory parentHistory solved.block (sapling.root .sapling)
      (orchard.root .orchard) (ironwood.root .ironwood) = .ok solvedTree) :
    Pushed settings solved parent (child.withTip solved parent.index.heightByHash solvedTree
      ⟨child.chainValuePools, settings.serializedSize solved.block % 2 ^ 32⟩) := by
  obtain ⟨_, _, updated⟩ := updateWithBlock_replaces replaces pushed.index
  obtain ⟨checked, changed, infos⟩ := updateValuePools_eq_ok.mp pushed.pools
  obtain ⟨current, sproutTree, tip, _, added⟩ := pushed.sprout
  exact {
    blocks := by
      change child.blocks.insert solved.height solved = _
      rw [pushed.blocks, replaces.height, insert_insert]
    index := by
      rw [updated, fresh]
      rfl
    sprout := ⟨current, sproutTree, tip,
      by rwa [updateSproutTree, ← replaces.noteCommitments .sprout],
      replaces.height ▸ added⟩
    sapling := replaces.height ▸ pushed.sapling.congr (replaces.noteCommitments .sapling)
    orchard := replaces.height ▸ pushed.orchard.congr (replaces.noteCommitments .orchard)
    ironwood := replaces.height ▸ pushed.ironwood.congr (replaces.noteCommitments .ironwood)
    history := ⟨parentHistory, solvedTree, sapling, orchard, ironwood, { history with
      pushed := treePushed
      fresh := replaces.height ▸ history.fresh
      histories := by
        change child.historyTreesByHeight.insert solved.height solvedTree = _
        rw [history.histories, replaces.height, insert_insert] }⟩
    pools := by
      refine updateValuePools_eq_ok.mpr ⟨?_, ?_, ?_⟩
      · rw [replaces.height, replaces.chainValuePoolChange]
        exact checked
      · rw [replaces.height, replaces.chainValuePoolChange]
        exact changed
      · change child.blockInfoByHeight.insert solved.height _ = _
        rw [infos, replaces.height, insert_insert]
        rfl }

end

theorem finishPreparedTip_eq_push
    (above : ∀ height, (parent.blocks.lookup height).isSome → height < proposal.height)
    (parentTree : parent.historyBlockCommitmentTree = some parentHistory) :
    child.finishPreparedTip settings solved parentHistory = .ok next ↔
      parent.push settings solved = .ok next := by
  obtain ⟨_, _, sapling, orchard, ironwood, history⟩ := pushed.history
  obtain rfl := mem_unique history.parentTree parentTree
  rw [finishPreparedTip_eq_ok pushed replaces history above]
  constructor
  · rintro ⟨fresh, solvedTree, treePushed, rfl⟩
    exact push_eq_ok.mpr (pushed.replace replaces history fresh treePushed)
  intro made
  have solvedPushed := push_eq_ok.mp made
  obtain ⟨_, _, updated⟩ := updateWithBlock_replaces replaces pushed.index
  have fresh : parent.index.heightByHash.lookup solved.hash = none := by
    rw [solvedPushed.index] at updated
    by_contra present
    rw [if_pos (isSome_iff_ne_none.mpr present)] at updated
    cases updated
  obtain ⟨_, solvedTree, _, _, _,
    solvedHistory⟩ := solvedPushed.history
  obtain rfl := mem_unique solvedHistory.parentTree parentTree
  obtain rfl := (replaces.height ▸ pushed.sapling).sameTip (replaces.noteCommitments .sapling)
    solvedPushed.sapling history.saplingTree solvedHistory.saplingTree
  obtain rfl := (replaces.height ▸ pushed.orchard).sameTip (replaces.noteCommitments .orchard)
    solvedPushed.orchard history.orchardTree solvedHistory.orchardTree
  obtain rfl := (replaces.height ▸ pushed.ironwood).sameTip (replaces.noteCommitments .ironwood)
    solvedPushed.ironwood history.ironwoodTree solvedHistory.ironwoodTree
  have finished := pushed.replace replaces history fresh solvedHistory.pushed
  exact ⟨fresh, solvedTree, solvedHistory.pushed,
    ok.inj ((push_eq_ok.mpr finished).symm.trans made)⟩

end

structure Accepted (settings : ChainSettings History) (proposal : ContextuallyVerifiedBlock)
    (parent child : Chain History) : Prop where
  above : ∀ height, (parent.blocks.lookup height).isSome → height < proposal.height
  pushed : parent.push settings proposal = .ok child

theorem Accepted.tipBlock (accepted : Accepted settings proposal parent child) :
    child.tipBlock = some proposal := by
  have pushed := push_eq_ok.mp accepted.pushed
  have last : FiniteMap.lastKey child.blocks = some proposal.height :=
    pushed.lastKey accepted.above
  unfold Chain.tipBlock FiniteMap.lastValue
  rw [last, pushed.blocks]
  exact lookup_insert _

theorem Accepted.finish (accepted : Accepted settings proposal parent child)
    (replaces : solved.Replaces proposal) :
    ∃ history, parent.historyBlockCommitmentTree = some history ∧
      ∀ next, child.finishPreparedTip settings solved history = .ok next ↔
        parent.push settings solved = .ok next := by
  have pushed := push_eq_ok.mp accepted.pushed
  obtain ⟨history, _, _, _, _, found⟩ := pushed.history
  exact ⟨history, found.parentTree, fun _ =>
    finishPreparedTip_eq_push pushed replaces accepted.above found.parentTree⟩

end Chain

/-- A block mined from a proposal: the header may differ except for the parent and the
difficulty, and what is derived from the transactions is the same. -/
structure SemanticallyVerifiedBlock.SolvedFrom (solved proposal : SemanticallyVerifiedBlock) :
    Prop where
  transactions : solved.block.transactions = proposal.block.transactions
  previousBlockHash :
    solved.block.header.previousBlockHash = proposal.block.header.previousBlockHash
  difficultyThreshold :
    solved.block.header.difficultyThreshold = proposal.block.header.difficultyThreshold
  newOutputs : solved.newOutputs = proposal.newOutputs
  transactionHashes : solved.transactionHashes = proposal.transactionHashes
  deferredPoolBalanceChange :
    solved.deferredPoolBalanceChange = proposal.deferredPoolBalanceChange

structure SemanticallyVerifiedBlock.Finishes (solved : SemanticallyVerifiedBlock)
    (proposal : ContextuallyVerifiedBlock) : Prop where
  transactions : solved.block.transactions = proposal.block.transactions
  previousBlockHash :
    solved.block.header.previousBlockHash = proposal.block.header.previousBlockHash
  difficultyThreshold :
    solved.block.header.difficultyThreshold = proposal.block.header.difficultyThreshold
  transactionHashes : solved.transactionHashes = proposal.transactionHashes

theorem SemanticallyVerifiedBlock.height_of_transactions {block : Block} {height : Nat}
    (same : solved.block.transactions = block.transactions)
    (agrees : block.coinbaseHeight = some height) : solved.height = height := by
  have solvedAgrees := solved.heightAgrees
  unfold Block.coinbaseHeight at solvedAgrees agrees
  rw [same, agrees] at solvedAgrees
  exact some.inj solvedAgrees.symm

namespace ContextuallyVerifiedBlock

variable {contextual : ContextuallyVerifiedBlock}

theorem fromSolvedProposal_succeeds (finishes : solved.Finishes proposal) :
    ∃ contextual, fromSolvedProposal solved proposal = .ok contextual ∧
      contextual.Replaces proposal := by
  have height := solved.height_of_transactions finishes.transactions proposal.heightAgrees
  refine ⟨_, dif_pos height, ?_⟩
  exact ⟨finishes.transactions, finishes.previousBlockHash, finishes.difficultyThreshold, rfl, rfl,
    rfl, rfl, rfl⟩

theorem fromSolvedProposal_solved (shared : fromSolvedProposal solved proposal = .ok contextual) :
    contextual.block = solved.block ∧ contextual.hash = solved.hash ∧
      contextual.height = solved.height ∧ contextual.receiptOrder = solved.receiptOrder := by
  unfold fromSolvedProposal at shared
  split at shared
  next sameHeight =>
    obtain rfl := ok.inj shared
    exact ⟨rfl, rfl, sameHeight.symm, rfl⟩
  · cases shared

theorem fromSolvedProposal_of_solvedFrom {poolChange : PoolChange}
    {spent : FiniteMap OutPoint OrderedUtxo}
    (made : withBlockAndSharedSpentUtxos poolChange verified spent = .ok proposal)
    (solves : solved.SolvedFrom verified) :
    ∃ contextual, withBlockAndSharedSpentUtxos poolChange solved spent = .ok contextual ∧
      fromSolvedProposal solved proposal = .ok contextual ∧ contextual.Replaces proposal := by
  simp only [withBlockAndSharedSpentUtxos, bind_eq_ok, pure_eq_ok] at made
  obtain ⟨change, computed, rfl⟩ := made
  have height := solved.height_of_transactions solves.transactions verified.heightAgrees
  refine ⟨_, ?_, dif_pos height, ?_⟩
  · simp only [withBlockAndSharedSpentUtxos, bind_eq_ok, pure_eq_ok]
    refine ⟨change, ?_, ?_⟩
    · rw [solves.transactions, solves.deferredPoolBalanceChange]
      exact computed
    · simp [height, solves.newOutputs, solves.transactionHashes]
  · exact ⟨solves.transactions, solves.previousBlockHash, solves.difficultyThreshold, rfl, rfl, rfl,
      rfl, rfl⟩

end ContextuallyVerifiedBlock

section

variable {Pointer : Type} [CommitmentHasher] {settings : ChainSettings History}
  {chainAt : Pointer → Chain History} {entry : ProposalEntry History Pointer}

structure ProposalEntry.KeepsProposal (settings : ChainSettings History)
    (chainAt : Pointer → Chain History) (prepared : PreparedProposal History Pointer)
    (proposal : ContextuallyVerifiedBlock) (entry : ProposalEntry History Pointer) : Prop where
  parentHash : entry.parentHash = proposal.block.header.previousBlockHash
  transactionHashes : entry.transactionHashes = proposal.transactionHashes
  accepted : Chain.Accepted settings proposal (chainAt prepared.parentChain) prepared.childChain

def ProposalEntry.Sound (settings : ChainSettings History) (chainAt : Pointer → Chain History)
    (entry : ProposalEntry History Pointer) : Prop :=
  ∀ prepared, entry.preparedProposal = .ok prepared →
    ∃ proposal, entry.KeepsProposal settings chainAt prepared proposal

theorem ProposalEntry.sound_of_dropped (reason : NotPrepared) (sound : entry.Sound settings chainAt) :
    (entry.dropChain reason).Sound settings chainAt := by
  unfold ProposalEntry.dropChain
  split
  · intro prepared kept
    cases kept
  · exact sound

variable [DecidableEq Pointer] {chain : Option (PreparedProposal History Pointer)}
  {pointer : Pointer}

/-- The caches that validated proposals, published writer states and commits lead to. `chainAt`
is the chain behind a pointer, which does not change while the pointer is held. -/
inductive ProposalCache.Reached (settings : ChainSettings History)
    (chainAt : Pointer → Chain History) : ProposalCache History Pointer → Prop
  | empty : Reached settings chainAt .empty
  | remember {cache next : ProposalCache History Pointer} {proposal : ContextuallyVerifiedBlock}
      {chain : Option (PreparedProposal History Pointer)} :
      Reached settings chainAt cache →
      (∀ prepared, chain = some prepared →
        Chain.Accepted settings proposal (chainAt prepared.parentChain) prepared.childChain) →
      cache.remember proposal chain = .ok next → Reached settings chainAt next
  | updateLiveChains {cache : ProposalCache History Pointer} (chains : List Pointer) :
      Reached settings chainAt cache → Reached settings chainAt (cache.updateLiveChains chains)
  | take {cache : ProposalCache History Pointer} (block : SemanticallyVerifiedBlock) :
      Reached settings chainAt cache → Reached settings chainAt (cache.take block).2

namespace ProposalCache

omit [CommitmentHasher] [DecidableEq Pointer] in
theorem mem_boundPreparedChains {entries : List (ProposalEntry History Pointer)}
    (member : entry ∈ boundPreparedChains entries) :
    ∃ old ∈ entries, entry = old ∨ entry = old.dropChain .chainNotRetained := by
  rcases mem_append.mp member with early | late
  · obtain ⟨old, listed, rfl⟩ := mem_map.mp early
    exact ⟨old, mem_of_mem_take listed, .inr rfl⟩
  · exact ⟨entry, mem_of_mem_drop late, .inl rfl⟩

variable {cache next remaining : ProposalCache History Pointer}

section

variable (accepted : ∀ prepared, chain = some prepared →
  Chain.Accepted settings proposal (chainAt prepared.parentChain) prepared.childChain)
include accepted

theorem entryFor_sound : (cache.entryFor proposal chain).Sound settings chainAt := by
  intro prepared kept
  refine ⟨proposal, rfl, rfl, accepted prepared ?_⟩
  unfold entryFor at kept
  cases chain with
  | none => cases kept
  | some found =>
    dsimp only at kept
    split at kept
    · rw [ok.inj kept]
    · cases kept

theorem remember_sound (sound : ∀ entry ∈ cache.entries, entry.Sound settings chainAt)
    (remembered : cache.remember proposal chain = .ok next) :
    ∀ entry ∈ next.entries, entry.Sound settings chainAt := by
  simp only [remember, bind_eq_ok, pure_eq_ok] at remembered
  obtain ⟨_, _, rfl⟩ := remembered
  intro entry member
  obtain ⟨old, listed, kept⟩ := mem_boundPreparedChains member
  have oldSound : old.Sound settings chainAt := by
    rcases mem_append.mp listed with earlier | latest
    · split at earlier
      · exact sound old (mem_filter.mp (mem_of_mem_tail earlier)).1
      · exact sound old (mem_filter.mp earlier).1
    · rw [mem_singleton.mp latest]
      exact entryFor_sound accepted
  rcases kept with rfl | rfl
  · exact oldSound
  · exact ProposalEntry.sound_of_dropped _ oldSound

end

theorem updateLiveChains_sound (chains : List Pointer)
    (sound : ∀ entry ∈ cache.entries, entry.Sound settings chainAt) :
    ∀ entry ∈ (cache.updateLiveChains chains).entries, entry.Sound settings chainAt := by
  intro entry member
  obtain ⟨old, listed, rfl⟩ := mem_map.mp member
  split
  · split
    · exact sound old listed
    · exact ProposalEntry.sound_of_dropped _ (sound old listed)
  · exact sound old listed

theorem Reached.sound (reached : Reached settings chainAt cache) :
    ∀ entry ∈ cache.entries, entry.Sound settings chainAt := by
  induction reached with
  | empty => intro entry member; cases member
  | remember _ accepted remembered ih => exact remember_sound accepted ih remembered
  | updateLiveChains chains _ ih => exact updateLiveChains_sound chains ih
  | take block _ ih =>
    intro entry member
    exact ih entry (mem_of_mem_eraseP member)

omit [CommitmentHasher] in
theorem forSolvedBlock_eq_ok {prepared : PreparedProposal History Pointer} {chain : Chain History}
    (tip : prepared.childChain.tipBlock = some proposal) :
    prepared.forSolvedBlock solved pointer = .ok (.ok chain) ↔ prepared.parentChain = pointer ∧
      solved.block.transactions = proposal.block.transactions ∧
      solved.block.header.difficultyThreshold = proposal.block.header.difficultyThreshold ∧
      prepared.childChain = chain := by
  unfold PreparedProposal.forSolvedBlock
  rw [tip]
  by_cases pointers : prepared.parentChain = pointer
  · by_cases transactions : solved.block.transactions = proposal.block.transactions
    · by_cases threshold :
        solved.block.header.difficultyThreshold = proposal.block.header.difficultyThreshold
      · simp [pointers, transactions, threshold, expect, bind, Except.bind, pure, Except.pure]
      · simp [pointers, transactions, threshold, Ne.symm threshold, expect, bind, Except.bind, pure,
          Except.pure]
    · simp [pointers, transactions, Ne.symm transactions, expect, bind, Except.bind, pure,
        Except.pure]
  · simp [pointers]

theorem Reached.takeFor (reached : Reached settings chainAt cache)
    {spent : Option (FiniteMap OutPoint OrderedUtxo)} {chain : Chain History}
    (taken : cache.takeFor solved (some pointer) = .ok (⟨spent, .ok chain⟩, remaining)) :
    ∃ proposal, Chain.Accepted settings proposal (chainAt pointer) chain ∧
      solved.Finishes proposal := by
  unfold ProposalCache.takeFor at taken
  split at taken
  · simp at taken
  rename_i entry rest found
  have listed : cache.entries.find? (fun entry =>
      entry.isFor solved.block.header.previousBlockHash solved.transactionHashes) = some entry :=
    congrArg Prod.fst found
  have isFor : entry.parentHash = solved.block.header.previousBlockHash ∧
      entry.transactionHashes = solved.transactionHashes := by
    simpa [ProposalEntry.isFor] using find?_some listed
  rw [bind_eq_ok] at taken
  obtain ⟨_, offered, same⟩ := taken
  obtain ⟨⟨_, rfl⟩, _⟩ := same
  unfold reuse at offered
  cases kept : entry.preparedProposal with
  | error reason => simp [kept] at offered
  | ok prepared =>
    rw [kept] at offered
    obtain ⟨proposal, keeps⟩ := reached.sound entry (mem_of_find?_eq_some listed) prepared kept
    obtain ⟨pointers, transactions, threshold, rfl⟩ :=
      (forSolvedBlock_eq_ok keeps.accepted.tipBlock).mp offered
    exact ⟨proposal, pointers ▸ keeps.accepted, transactions,
      isFor.1.symm.trans keeps.parentHash, threshold, isFor.2.symm.trans keeps.transactionHashes⟩

open ContextuallyVerifiedBlock in
/-- A solved block finished from its proposal makes the chain that pushing it onto the parent
makes, for every block that differs from the proposal in header fields a miner may change; and no
other block is finished from a retained proposal. -/
theorem finish_equals_push (settings : ChainSettings History) (poolChange : PoolChange)
    (chainAt : Pointer → Chain History) :
    (∀ (proposal solved : SemanticallyVerifiedBlock) (spent : FiniteMap OutPoint OrderedUtxo)
        (contextual : ContextuallyVerifiedBlock) (parent child : Chain History),
      withBlockAndSharedSpentUtxos poolChange proposal spent = .ok contextual →
      Chain.Accepted settings contextual parent child → solved.SolvedFrom proposal →
      ∃ finished history,
        withBlockAndSharedSpentUtxos poolChange solved spent = .ok finished ∧
        fromSolvedProposal solved contextual = .ok finished ∧
        parent.historyBlockCommitmentTree = some history ∧
        ∀ next, child.finishPreparedTip settings finished history = .ok next ↔
          parent.push settings finished = .ok next) ∧
    (∀ (cache remaining : ProposalCache History Pointer) (solved : SemanticallyVerifiedBlock)
        (pointer : Pointer) (spent : Option (FiniteMap OutPoint OrderedUtxo))
        (prepared : Chain History),
      Reached settings chainAt cache →
      cache.takeFor solved (some pointer) = .ok (⟨spent, .ok prepared⟩, remaining) →
      ∃ proposal finished history, prepared.tipBlock = some proposal ∧ solved.Finishes proposal ∧
        fromSolvedProposal solved proposal = .ok finished ∧
        (chainAt pointer).historyBlockCommitmentTree = some history ∧
        ∀ next, prepared.finishPreparedTip settings finished history = .ok next ↔
          (chainAt pointer).push settings finished = .ok next) := by
  constructor
  · intro proposal solved spent contextual parent child verified accepted solves
    obtain ⟨finished, made, shared, replaces⟩ :=
      fromSolvedProposal_of_solvedFrom verified solves
    obtain ⟨history, found, equal⟩ := accepted.finish replaces
    exact ⟨finished, history, made, shared, found, equal⟩
  intro cache remaining solved pointer spent prepared reached taken
  obtain ⟨proposal, accepted, finishes⟩ := reached.takeFor taken
  obtain ⟨finished, shared, replaces⟩ :=
    fromSolvedProposal_succeeds finishes
  obtain ⟨history, found, equal⟩ := accepted.finish replaces
  exact ⟨proposal, finished, history, accepted.tipBlock, finishes, shared, found, equal⟩

end ProposalCache

end

namespace Sample

local instance proposalHasher : CommitmentHasher := hasher

def poolChange : PoolChange := fun _ _ _ => .ok ⟨fun _ => .zero, .zero⟩

def proposed : SemanticallyVerifiedBlock where
  block := received.block
  hash := received.hash
  height := received.height
  newOutputs := received.newOutputs
  transactionHashes := received.transactionHashes
  deferredPoolBalanceChange := none
  authDataRoot := none
  receiptOrder := none
  heightAgrees := received.heightAgrees

def mined : SemanticallyVerifiedBlock :=
  { proposed with
    block := ⟨{ header 0 with nonce := 7 }, received.block.transactions⟩
    hash := ⟨77⟩
    heightAgrees := rfl }

theorem mined_solvedFrom : mined.SolvedFrom proposed := ⟨rfl, rfl, rfl, rfl, rfl, rfl⟩

def afterProposal : Chain Unit := value (start.push settings received) (by decide +kernel)

theorem received_accepted : Chain.Accepted settings received start afterProposal := by
  refine ⟨?_, eq_value _⟩
  intro height present
  cases present

def cache : ProposalCache Unit Unit :=
  value ((ProposalCache.empty.updateLiveChains [()]).remember received (some ⟨(), afterProposal⟩))
    (by decide +kernel)

theorem cache_reached : ProposalCache.Reached settings (fun _ => start) cache := by
  refine .remember (.updateLiveChains [()] .empty) ?_ (eq_value _)
  intro prepared isPrepared
  obtain rfl := some.inj isPrepared
  exact received_accepted

def taken : Reusable Unit × ProposalCache Unit Unit :=
  value (cache.takeFor mined (some ())) (by decide +kernel)

def prepared : Chain Unit := value taken.1.chain (by decide +kernel)

def minedBlock : ContextuallyVerifiedBlock :=
  value (fromSolvedProposal mined received) (by decide +kernel)

def afterMined : Chain Unit := value (start.push settings minedBlock) (by decide +kernel)

open ContextuallyVerifiedBlock in
/-- The mined block is finished from its proposal, also when the proposal comes from the cache. -/
theorem finish_equals_push_of_mined :
    (∃ finished next, fromSolvedProposal mined received = .ok finished ∧
      afterProposal.finishPreparedTip settings finished () = .ok next ∧
      start.push settings finished = .ok next) ∧
    ∃ proposal finished, prepared.tipBlock = some proposal ∧ mined.Finishes proposal ∧
      fromSolvedProposal mined proposal = .ok finished ∧
      ∀ next, prepared.finishPreparedTip settings finished () = .ok next ↔
        start.push settings finished = .ok next := by
  have verified : withBlockAndSharedSpentUtxos poolChange proposed received.spentOutputs =
    .ok received := rfl
  have offered : cache.takeFor mined (some ()) =
      .ok (⟨taken.1.spentUtxos, .ok prepared⟩, taken.2) := by
    have chain : taken.1.chain = .ok prepared := eq_value _
    have all : cache.takeFor mined (some ()) = .ok taken := eq_value _
    rw [all, ← chain]
  obtain ⟨direct, cached⟩ :=
    ProposalCache.finish_equals_push settings poolChange (fun _ : Unit => start)
  obtain ⟨finished, _, _, shared, _, equal⟩ :=
    direct proposed mined _ received start afterProposal verified received_accepted mined_solvedFrom
  obtain ⟨proposal, again, _, tip, finishes, sharedAgain, _, equalAgain⟩ :=
    cached cache taken.2 mined () taken.1.spentUtxos prepared cache_reached offered
  have pushed : start.push settings minedBlock = .ok afterMined := eq_value _
  obtain rfl : minedBlock = finished := ok.inj ((eq_value _).symm.trans shared)
  exact ⟨⟨minedBlock, afterMined, shared, (equal afterMined).mpr pushed, pushed⟩,
    proposal, again, tip, finishes, sharedAgain, equalAgain⟩

end Sample

end Zakura.NonFinalized
