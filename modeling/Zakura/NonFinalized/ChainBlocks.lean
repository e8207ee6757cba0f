import Zakura.NonFinalized.ChainFork
import Mathlib.Algebra.Ring.Nat

/-!
A chain and the list of its blocks. Pushing, popping and forking add and remove
blocks at the ends of the list, and the indexes are always those of the blocks that
remain.
-/

namespace Zakura.NonFinalized

open HeaderChain (Hash)
open FiniteMap Fallible ChainIndex List ContextuallyVerifiedBlock

namespace Chain

variable {History : Type} {settings : ChainSettings History}
  {block root : ContextuallyVerifiedBlock} {blocks first rest : List ContextuallyVerifiedBlock}
  {chain next popped forked : Chain History} {finalized fuel : Nat}

/-- The chain above a finalized height that holds exactly the listed blocks, lowest first. -/
structure Represents (settings : ChainSettings History) (finalized : Nat)
    (blocks : List ContextuallyVerifiedBlock) (chain : Chain History) : Prop where
  held : ∀ height block, chain.blocks.lookup height = some block ↔
    block ∈ blocks ∧ block.height = height
  heights : blocks.map (·.height) = range' (finalized + 1) blocks.length
  index : Journal.Run (journal settings).Made (updatesOf settings blocks) .empty
    chain.index
  balances : chain.index.BalancesHold

namespace Represents

section

variable (represents : Represents settings finalized blocks chain)
include represents

theorem wellFormed : chain.index.WellFormed :=
  (journal_lawful settings).run_valid empty_wellFormed represents.index

theorem entered :
    EnteredAll (blocks.map fun block => (block.hash, block.height)) ∅ chain.index.heightByHash := by
  have all : EnteredAll ((updatesOf settings blocks).filterMap ChainUpdate.heightEntry)
      (empty).heightByHash chain.index.heightByHash :=
    run_entered (fun applied => applied.heights) represents.index
  unfold updatesOf at all
  rw [filterMap_flatMap] at all
  simp only [updates_heights, ← map_eq_flatMap] at all
  exact all

theorem filed (hash : Hash) (height : Nat) : chain.index.heightByHash.lookup hash = some height ↔
      ∃ block ∈ blocks, block.hash = hash ∧ block.height = height := by
  rw [represents.entered.lookup]
  simp [Finmap.lookup_empty]

theorem contains (hash : Hash) :
    (chain.index.heightByHash.lookup hash).isSome ↔ hash ∈ blocks.map (·.hash) := by
  rw [Option.isSome_iff_exists]
  simp only [represents.filed, mem_map]
  constructor
  · rintro ⟨_, block, member, same, _⟩
    exact ⟨block, member, same⟩
  · rintro ⟨block, member, same⟩
    exact ⟨block.height, block, member, same, rfl⟩

theorem hashes_nodup : (blocks.map (·.hash)).Nodup := by
  have distinct := represents.entered.distinct
  rw [map_map] at distinct
  exact distinct

theorem heights_nodup : (blocks.map (·.height)).Nodup := by
  rw [represents.heights]
  exact nodup_range'

theorem bounds (member : block ∈ blocks) :
    finalized < block.height ∧ block.height ≤ finalized + blocks.length := by
  have listed : block.height ∈ blocks.map (·.height) := mem_map_of_mem member
  rw [represents.heights, mem_range'_1] at listed
  omega

end

theorem heights_append (represents : Represents settings finalized (first ++ rest) chain) :
    first.map (·.height) = range' (finalized + 1) first.length ∧
      rest.map (·.height) = range' (finalized + first.length + 1) rest.length := by
  have all := represents.heights
  rw [map_append, length_append, ← range'_append_1] at all
  have sizes : (first.map (·.height)).length = (range' (finalized + 1) first.length).length := by
    simp
  obtain ⟨early, late⟩ := append_inj all sizes
  refine ⟨early, ?_⟩
  rw [late]
  congr 1
  omega

section

variable (represents : Represents settings finalized (first ++ [block]) chain)
include represents

theorem last_height : block.height = finalized + first.length + 1 := by
  have last := represents.heights_append.2
  simpa using last

theorem maxBlockHeight : chain.maxBlockHeight = some block.height := by
  refine lastKey_eq_some.mpr ⟨?_, ?_⟩
  · exact mem_keys_iff.mpr ⟨block, (represents.held _ _).mpr ⟨by simp, rfl⟩⟩
  intro height member
  obtain ⟨_, found⟩ := mem_keys_iff.mp member
  obtain ⟨listed, rfl⟩ := (represents.held _ _).mp found
  have bound := (represents.bounds listed).2
  rw [length_append, length_singleton] at bound
  rw [represents.last_height]
  omega

theorem tip : chain.tipBlock = some block := by
  have last : lastKey chain.blocks = some block.height := represents.maxBlockHeight
  unfold tipBlock lastValue
  rw [last]
  exact (represents.held _ _).mpr ⟨by simp, rfl⟩

theorem tipHash : chain.tipHash = some block.hash := by
  unfold Chain.tipHash
  rw [represents.tip]
  rfl

end

theorem rootHeight (represents : Represents settings finalized (block :: rest) chain) :
    chain.rootHeight = some (finalized + 1) ∧ block.height = finalized + 1 := by
  have heights := represents.heights
  rw [map_cons, length_cons, range'_succ, cons.injEq] at heights
  refine ⟨firstKey_eq_some.mpr ⟨?_, ?_⟩, heights.1⟩
  · exact mem_keys_iff.mpr
      ⟨block, (represents.held _ _).mpr ⟨mem_cons_self, heights.1⟩⟩
  intro height member
  obtain ⟨_, found⟩ := mem_keys_iff.mp member
  obtain ⟨listed, rfl⟩ := (represents.held _ _).mp found
  exact (represents.bounds listed).1

section

variable (represents : Represents settings finalized blocks chain)
include represents

theorem isEmpty : chain.isEmpty = true ↔ blocks = [] := by
  simp only [Chain.isEmpty, decide_eq_true_eq]
  constructor
  · intro empty
    by_contra nonempty
    obtain ⟨block, member⟩ := exists_mem_of_ne_nil _ nonempty
    have key := mem_keys_iff.mpr
      ⟨block, (represents.held _ _).mpr ⟨member, rfl⟩⟩
    simp [empty] at key
  · rintro rfl
    rw [Finset.eq_empty_iff_forall_notMem]
    intro height member
    obtain ⟨block, found⟩ := mem_keys_iff.mp member
    exact absurd ((represents.held _ _).mp found).1 not_mem_nil

theorem ascending_keys : ascending chain.blocks.keys = blocks.map (·.height) := by
  refine List.Perm.eq_of_pairwise' (r := (· ≤ ·)) (pairwise_ascending _) ?_ ?_
  · rw [represents.heights]
    exact pairwise_le_range'
  · rw [perm_ext_iff_of_nodup (nodup_ascending _) represents.heights_nodup]
    intro height
    simp only [mem_ascending, mem_keys_iff, represents.held, mem_map]

theorem read {some : List ContextuallyVerifiedBlock} (listed : some ⊆ blocks) :
    (some.map (·.height)).filterMap chain.blocks.lookup = some := by
  have each : ∀ block ∈ some,
      (chain.blocks.lookup ∘ fun block => block.height) block = Option.some block :=
    fun block member => (represents.held _ _).mpr ⟨listed member, rfl⟩
  rw [filterMap_map, filterMap_congr each, filterMap_some]

theorem values : FiniteMap.values chain.blocks = blocks := by
  unfold FiniteMap.values
  rw [represents.ascending_keys]
  exact represents.read (List.Subset.refl _)

end

end Represents

theorem represents_new [CommitmentHasher] {tip : FinalizedTip History} (isNew : new tip = .ok chain) :
    Represents settings tip.height [] chain := by
  have started := started_of_new isNew
  refine ⟨?_, rfl, ?_, ?_⟩
  · intro height block
    rw [started.blocks, Finmap.lookup_empty]
    simp
  · rw [started.index]
    rfl
  · rw [started.index]
    exact empty_balancesHold

theorem updatesOf_append :
    updatesOf settings (first ++ rest) = updatesOf settings first ++ updatesOf settings rest :=
  flatMap_append

theorem updatesOf_singleton : updatesOf settings [block] = block.updates settings := by
  simp [updatesOf]

namespace Represents

section

variable (represents : Represents settings finalized blocks chain)
include represents

theorem push [CommitmentHasher] (height : block.height = finalized + blocks.length + 1)
    (isPushed : chain.push settings block = .ok next) :
    Represents settings finalized (blocks ++ [block]) next := by
  have pushed := push_eq_ok.mp isPushed
  have valid := represents.wellFormed
  refine ⟨?_, ?_, ?_, ?_⟩
  · intro query found
    rw [pushed.blocks, lookup_insert_ite, mem_append, mem_singleton]
    split
    next same =>
      rw [Option.some.injEq]
      constructor
      · rintro rfl
        exact ⟨.inr rfl, same.symm⟩
      rintro ⟨member | rfl, isHeight⟩
      · have bound := (represents.bounds member).2
        omega
      · rfl
    next different =>
      rw [represents.held]
      constructor
      · rintro ⟨member, isHeight⟩
        exact ⟨.inl member, isHeight⟩
      · rintro ⟨member | rfl, isHeight⟩
        · exact ⟨member, isHeight⟩
        · exact absurd isHeight.symm different
  · rw [map_append, represents.heights, length_append, length_singleton, range'_concat]
    simp only [map_cons, map_nil, height]
    congr 2
    omega
  · rw [updatesOf_append, updatesOf_singleton]
    exact Journal.run_append.mpr
      ⟨chain.index, represents.index, updateWithBlock_run valid pushed.index⟩
  · exact updateWithBlock_balancesHold valid represents.balances pushed.index

theorem reverted {index : ChainIndex} (permuted : blocks.Perm (rest ++ [block]))
    (isReverted : chain.index.revertBlock settings block = .ok index) :
    Journal.Run (journal settings).Made (updatesOf settings rest) .empty index ∧
      index.BalancesHold := by
  have lawful := journal_lawful settings
  obtain ⟨_, reversible⟩ := (revertBlock_eq_ok represents.balances).mp isReverted
  have reordered := lawful.run_perm (permuted.flatMap_right _) represents.index
  have split : Journal.Run (journal settings).Made
      (updatesOf settings rest ++ block.updates settings) .empty chain.index := by
    rw [← updatesOf_singleton, ← updatesOf_append]
    exact reordered
  obtain ⟨middle, ranRest, ranBlock⟩ := Journal.run_append.mp split
  have undone := lawful.undo_run (block.reverts_perm settings)
    (lawful.run_valid empty_wellFormed ranRest) ranBlock
  have restored := (revertBlock_eq_ok represents.balances).mpr ⟨undone, reversible⟩
  obtain rfl : index = middle := Except.ok.inj (isReverted.symm.trans restored)
  refine ⟨ranRest, ?_⟩
  intro address
  rw [run_undone_balance undone, block.reverts_movements settings]
  exact reversible address _ (prefix_refl _)

theorem held_erase (permuted : blocks.Perm (rest ++ [block])) (height : Nat)
    (found : ContextuallyVerifiedBlock) :
    (chain.blocks.erase block.height).lookup height = some found ↔
      found ∈ rest ∧ found.height = height := by
  have distinct : ((rest ++ [block]).map (·.height)).Nodup :=
    (permuted.map _).nodup_iff.mp represents.heights_nodup
  rw [map_append, nodup_append] at distinct
  have apart : ∀ other ∈ rest, other.height ≠ block.height := fun other member =>
    distinct.2.2 _ (mem_map_of_mem member) _ (by simp)
  rw [lookup_erase_ite]
  split
  next same =>
    simp only [reduceCtorEq, false_iff, not_and]
    intro member isHeight
    exact apart found member (isHeight.trans same)
  rename_i different
  rw [represents.held, permuted.mem_iff, mem_append, mem_singleton]
  constructor
  · rintro ⟨member | rfl, isHeight⟩
    · exact ⟨member, isHeight⟩
    · exact absurd isHeight.symm different
  · rintro ⟨member, isHeight⟩
    exact ⟨.inl member, isHeight⟩

end

theorem popTip (represents : Represents settings finalized (first ++ [block]) chain)
    (isPopped : chain.popTip settings = .ok popped) :
    first ≠ [] ∧ Represents settings finalized first popped := by
  have tipHeight := represents.maxBlockHeight
  have tipBlock := (represents.held block.height block).mpr ⟨by simp, rfl⟩
  simp only [Chain.popTip, bind_eq_ok, expect_eq_ok, ite_error_eq_ok, tipHeight, Option.some.injEq,
    exists_eq_left', tipBlock] at isPopped
  obtain ⟨nonempty, made⟩ := isPopped
  simp only [Chain.revertChainWith, bind_eq_ok, pure_eq_ok] at made
  obtain ⟨_, isReverted, _, _, _, _, _, _, _, _, _, _, _, _, rfl⟩ := made
  obtain ⟨ran, balances⟩ := represents.reverted (List.Perm.refl _) isReverted
  have held := represents.held_erase (List.Perm.refl _)
  refine ⟨?_, held, represents.heights_append.1, ran, balances⟩
  rintro rfl
  refine nonempty ?_
  simp only [Chain.isEmpty, decide_eq_true_eq, Finset.eq_empty_iff_forall_notMem]
  intro height member
  obtain ⟨found, isFound⟩ := mem_keys_iff.mp member
  exact absurd ((held height found).mp isFound).1 not_mem_nil

theorem popRoot {treestate : Treestate History}
    (represents : Represents settings finalized (block :: rest) chain)
    (isPopped : chain.popRoot settings = .ok ((root, treestate), popped)) :
    root = block ∧ chain.treestate block.height = some treestate ∧
      Represents settings (finalized + 1) rest popped := by
  obtain ⟨rootHeight, isHeight⟩ := represents.rootHeight
  have rootBlock := (represents.held (finalized + 1) block).mpr ⟨mem_cons_self, isHeight⟩
  simp only [Chain.popRoot, bind_eq_ok, expect_eq_ok, pure_eq_ok, rootHeight, Option.some.injEq,
    exists_eq_left', rootBlock] at isPopped
  obtain ⟨_, isFound, _, made, same⟩ := isPopped
  obtain ⟨⟨rfl, rfl⟩, rfl⟩ := same
  simp only [Chain.revertChainWith, bind_eq_ok, pure_eq_ok] at made
  obtain ⟨_, isReverted, _, _, _, _, _, _, _, _, _, _, _, _, rfl⟩ := made
  have permuted : (block :: rest).Perm (rest ++ [block]) :=
    (perm_append_singleton block rest).symm
  obtain ⟨ran, balances⟩ := represents.reverted permuted isReverted
  refine ⟨rfl, isHeight ▸ isFound, ?_, ?_, ran, balances⟩
  · exact isHeight ▸ represents.held_erase permuted
  · have heights := represents.heights
    rw [map_cons, length_cons, range'_succ, cons.injEq] at heights
    exact heights.2

theorem keys_empty (represents : Represents settings finalized [] chain) :
    chain.blocks.keys = ∅ := by
  have isEmpty := represents.isEmpty.mpr rfl
  simpa [Chain.isEmpty] using isEmpty

theorem tipHash_none (represents : Represents settings finalized [] chain) :
    chain.tipHash = none := by
  unfold Chain.tipHash tipBlock lastValue lastKey
  rw [represents.keys_empty]
  rfl

variable {forkTip : Hash}

theorem forkLoop_cases (looped : chain.forkLoop settings forkTip fuel = .ok forked) :
    (chain.tipHash = some forkTip ∧ forked = chain) ∨
      ∃ fewer popped, fuel = fewer + 1 ∧ chain.popTip settings = .ok popped ∧
        popped.forkLoop settings forkTip fewer = .ok forked := by
  rw [Chain.forkLoop.eq_def] at looped
  dsimp only at looped
  split at looped
  · cases looped
  rename_i hash isTip
  split at looped
  next same =>
    exact .inl ⟨same ▸ isTip, (Except.ok.inj looped).symm⟩
  cases fuel with
  | zero => cases looped
  | succ fewer =>
    obtain ⟨popped, isPopped, continued⟩ := bind_eq_ok.mp looped
    exact .inr ⟨fewer, popped, rfl, isPopped, continued⟩

/-- A chain of the blocks up to the one with the hash. -/
def ForkedAt (settings : ChainSettings History) (finalized : Nat)
    (blocks : List ContextuallyVerifiedBlock) (forkTip : Hash) (forked : Chain History) : Prop :=
  ∃ first block rest, blocks = first ++ block :: rest ∧ block.hash = forkTip ∧
    Represents settings finalized (first ++ [block]) forked

variable (represents : Represents settings finalized blocks chain)
include represents

theorem atTip (isTip : chain.tipHash = some forkTip) : ForkedAt settings finalized blocks forkTip chain := by
  rcases eq_nil_or_concat blocks with rfl | ⟨first, block, rfl⟩
  · rw [represents.tipHash_none] at isTip
    cases isTip
  · rw [concat_eq_append] at represents ⊢
    rw [represents.tipHash] at isTip
    exact ⟨first, block, [], rfl, Option.some.inj isTip, represents⟩

theorem popTip_nonempty (isPopped : chain.popTip settings = .ok popped) : blocks ≠ [] := by
  rintro rfl
  simp only [Chain.popTip, bind_eq_ok, expect_eq_ok, Chain.maxBlockHeight, lastKey,
    represents.keys_empty] at isPopped
  obtain ⟨_, isTip, _⟩ := isPopped
  simp at isTip

theorem forkLoop (looped : chain.forkLoop settings forkTip fuel = .ok forked) :
    ForkedAt settings finalized blocks forkTip forked := by
  induction fuel generalizing blocks chain with
  | zero =>
    rcases forkLoop_cases looped with ⟨isTip, rfl⟩ | ⟨_, _, impossible, _⟩
    · exact represents.atTip isTip
    · cases impossible
  | succ fuel ih =>
    rcases forkLoop_cases looped with ⟨isTip, rfl⟩ | ⟨_, _, same, isPopped, continued⟩
    · exact represents.atTip isTip
    obtain rfl := Nat.succ.inj same
    rcases eq_nil_or_concat blocks with rfl | ⟨_, last, rfl⟩
    · exact absurd (represents.popTip_nonempty isPopped) (by simp)
    rw [concat_eq_append] at represents ⊢
    obtain ⟨early, block, late, rfl, same, found⟩ :=
      ih (represents.popTip isPopped).2 continued
    exact ⟨early, block, late ++ [last], by simp, same, found⟩

theorem fork {result : Option (Chain History)} (isForked : chain.fork settings forkTip = .ok result) :
    match result with
    | none => forkTip ∉ blocks.map (·.hash)
    | some forked => ForkedAt settings finalized blocks forkTip forked := by
  unfold Chain.fork at isForked
  split at isForked
  next absent =>
    obtain rfl := Except.ok.inj isForked
    rw [← represents.contains, Option.isNone_iff_eq_none.mp absent]
    simp
  · obtain ⟨_, looped, same⟩ := bind_eq_ok.mp isForked
    obtain rfl := pure_eq_ok.mp same
    exact represents.forkLoop looped

end Represents

theorem run_work {updates : List ChainUpdate} {before after : ChainIndex}
    (ran : Journal.Run (journal settings).Made updates before after) : after.partialCumulativeWork =
      before.partialCumulativeWork + (updates.map ChainUpdate.addedWork).sum := by
  induction updates generalizing before with
  | nil =>
    obtain rfl := Journal.run_nil.mp ran
    simp
  | cons update others ih =>
    obtain ⟨_, applied, ran⟩ := ran
    rw [ih ran, applied.work, map_cons, sum_cons, Nat.add_assoc]

theorem updates_work (settings : ChainSettings History) (block : ContextuallyVerifiedBlock) :
    ((block.updates settings).map ChainUpdate.addedWork).sum = block.work.getD 0 := by
  have others : ∀ update ∈ block.indexedTransactions.flatMap (block.transactionUpdates settings),
      update.addedWork = 0 := by
    intro update member
    obtain ⟨⟨_, _, _⟩, _, made⟩ := mem_flatMap.mp member
    simp only [transactionUpdates] at made
    split at made
    · obtain rfl := mem_singleton.mp made
      rfl
    simp only [shieldedUpdates,
      revealedNullifiers, createdOutputs,
      spentInputs, mem_append, mem_map, mem_singleton]
      at made
    rcases made with ((((((⟨_, _, rfl⟩ | ⟨_, _, rfl⟩) | ⟨_, _, rfl⟩) | ⟨_, _, rfl⟩) | rfl) |
      ⟨_, _, rfl⟩) | ⟨_, _, rfl⟩) <;> rfl
  unfold updates
  rw [map_cons, map_cons, sum_cons, sum_cons, sum_eq_zero (fun work listed => by
      obtain ⟨update, member, rfl⟩ := mem_map.mp listed
      exact others update member)]
  cases block.work <;> rfl

theorem Represents.work (represents : Represents settings finalized blocks chain) :
    chain.index.partialCumulativeWork = (blocks.map fun block => block.work.getD 0).sum := by
  have total : ((updatesOf settings blocks).map ChainUpdate.addedWork).sum =
      (blocks.map fun block => block.work.getD 0).sum := by
    clear represents
    induction blocks with
    | nil => rfl
    | cons block others ih =>
      rw [updatesOf, flatMap_cons, map_append, sum_append, updates_work, map_cons, sum_cons, ← ih]
      rfl
  rw [run_work represents.index, total]
  exact Nat.zero_add _

end Chain

end Zakura.NonFinalized
