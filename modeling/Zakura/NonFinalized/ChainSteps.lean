import Zakura.NonFinalized.ChainCore
import Zakura.NonFinalized.IndexSteps
import Zakura.NonFinalized.SubtreeSteps

/-!
What pushing and popping a block does to each part of a chain, and the invariant of
the chains that grow from a finalized tip.
-/

namespace Zakura.NonFinalized

open HeaderChain (Hash u256Bound)
open FiniteMap Fallible

theorem bothTasks_eq_ok {First Second : Type} {first : Except ChainError First}
    {second : Except ChainError Second} {result : First × Second} :
    bothTasks first second = .ok result ↔ first = .ok result.1 ∧ second = .ok result.2 := by
  obtain ⟨_, _⟩ := result
  cases first with
  | error | ok =>
    cases second with
    | error error => cases error <;> simp [bothTasks]
    | ok value => simp [bothTasks]

namespace Chain

variable {History : Type} [CommitmentHasher] {settings : ChainSettings History}
  {block : ContextuallyVerifiedBlock} {chain next : Chain History} {height seed : Nat}

structure HistoryPushed (settings : ChainSettings History) (block : ContextuallyVerifiedBlock)
    (chain next : Chain History) (parent tree : History)
    (sapling orchard ironwood : NoteCommitmentTree) : Prop where
  parentTree : chain.historyBlockCommitmentTree = some parent
  saplingTree : next.sapling.treeForTip = some sapling
  orchardTree : next.orchard.treeForTip = some orchard
  ironwoodTree : next.ironwood.treeForTip = some ironwood
  pushed : settings.pushHistory parent block.block (sapling.root .sapling) (orchard.root .orchard)
    (ironwood.root .ironwood) = .ok tree
  fresh : chain.historyTreesByHeight.lookup block.height = none
  histories : next.historyTreesByHeight = chain.historyTreesByHeight.insert block.height tree

def SproutPushed (block : ContextuallyVerifiedBlock) (chain next : Chain History) : Prop :=
  ∃ current tree, chain.sprout.index.treeForTip = some current ∧
    updateSproutTree block.block current = .ok tree ∧
    chain.sprout.addTreeAndAnchor block.height tree = .ok next.sprout

structure Pushed (settings : ChainSettings History) (block : ContextuallyVerifiedBlock)
    (chain next : Chain History) : Prop where
  blocks : next.blocks = chain.blocks.insert block.height block
  index : chain.index.updateWithBlock settings block = .ok next.index
  sprout : SproutPushed block chain next
  sapling : PoolPushed .sapling block.block block.height chain.maxBlockHeight chain.sapling
    chain.saplingSubtrees next.sapling next.saplingSubtrees
  orchard : PoolPushed .orchard block.block block.height chain.maxBlockHeight chain.orchard
    chain.orchardSubtrees next.orchard next.orchardSubtrees
  ironwood : PoolPushed .ironwood block.block block.height chain.maxBlockHeight chain.ironwood
    chain.ironwoodSubtrees next.ironwood next.ironwoodSubtrees
  history : ∃ parent tree sapling orchard ironwood,
    HistoryPushed settings block chain next parent tree sapling orchard ironwood
  pools : updateValuePools settings block chain.chainValuePools chain.blockInfoByHeight =
    .ok (next.chainValuePools, next.blockInfoByHeight)

omit [CommitmentHasher] in
theorem addHistoryTree_eq_ok {tree : History} {trees result : FiniteMap Nat History} :
    addHistoryTree height tree trees = .ok result ↔
      trees.lookup height = none ∧ result = trees.insert height tree := by
  simp only [addHistoryTree, ite_error_eq_ok, Option.not_isSome_iff_eq_none, Except.ok.injEq]
  rw [eq_comm (a := result)]

theorem push_eq_ok : chain.push settings block = .ok next ↔ Pushed settings block chain next := by
  simp only [push, treesForTip, NoteCommitmentTrees.updateTreesParallel, updateExceptTrees,
    bind_eq_ok, bothTasks_eq_ok, pure_eq_ok, expect_eq_ok, mapError_eq_ok, addHistoryTree_eq_ok,
    block.heightAgrees, Option.some.injEq]
  constructor
  · rintro ⟨_, ⟨sprout, sproutTip, sapling, saplingTip, orchard, orchardTip, ironwood,
      ironwoodTip, rfl⟩, ⟨_, index, pools, _⟩, ⟨⟨_, rfl, sproutTree, sproutUpdated,
      saplingTree, saplingUpdated, orchardTree, orchardUpdated, ironwoodTree, ironwoodUpdated, rfl⟩,
      ⟨_, indexUpdated, ⟨_, _⟩, poolsUpdated, same⟩⟩, _, sproutAdded, _,
      saplingAdded, _, orchardAdded, _, ironwoodAdded, newSapling,
      newSaplingTip, newOrchard, newOrchardTip, newIronwood, newIronwoodTip, parent, parentFound,
      tree, treePushed, histories, ⟨fresh, rfl⟩, rfl⟩
    obtain ⟨rfl, rfl, rfl⟩ := same
    exact {
      blocks := rfl
      index := indexUpdated
      sprout := ⟨sprout, sproutTree, sproutTip, sproutUpdated, sproutAdded⟩
      sapling := ⟨sapling, saplingTree, saplingTip, saplingUpdated, saplingAdded, rfl⟩
      orchard := ⟨orchard, orchardTree, orchardTip, orchardUpdated, orchardAdded, rfl⟩
      ironwood := ⟨ironwood, ironwoodTree, ironwoodTip, ironwoodUpdated, ironwoodAdded, rfl⟩
      history := ⟨parent, tree, newSapling, newOrchard, newIronwood, parentFound, newSaplingTip,
        newOrchardTip, newIronwoodTip, treePushed, fresh, rfl⟩
      pools := poolsUpdated }
  cases next
  rintro ⟨rfl, index, ⟨_, _, sproutTip, sproutUpdated, sproutAdded⟩,
    ⟨_, _, saplingTip, saplingUpdated, saplingAdded, rfl⟩,
    ⟨_, _, orchardTip, orchardUpdated, orchardAdded, rfl⟩,
    ⟨_, _, ironwoodTip, ironwoodUpdated, ironwoodAdded, rfl⟩,
    ⟨_, _, _, _, _, parentFound, newSaplingTip, newOrchardTip, newIronwoodTip, treePushed, fresh,
      rfl⟩, pools⟩
  exact ⟨_, ⟨_, sproutTip, _, saplingTip, _, orchardTip, _, ironwoodTip, rfl⟩, ⟨_, _, _, _⟩,
    ⟨⟨_, rfl, _, sproutUpdated, _, saplingUpdated, _, orchardUpdated, _, ironwoodUpdated, rfl⟩,
      _, index, _, pools, rfl⟩, _, sproutAdded, _, saplingAdded, _, orchardAdded, _, ironwoodAdded,
    _, newSaplingTip, _, newOrchardTip, _, newIronwoodTip, _, parentFound, _, treePushed, _,
    ⟨fresh, rfl⟩, rfl⟩

section

omit [CommitmentHasher]

variable {pools result : ValueBalance .nonNegative} {infos newInfos : FiniteMap Nat BlockInfo}

theorem updateValuePools_eq_ok :
    updateValuePools settings block pools infos = .ok (result, newInfos) ↔
      settings.nsmValueBalanceIsNonNegative block.height pools block.chainValuePoolChange = .ok () ∧
      (∃ changed, pools.addChainValuePoolChange block.chainValuePoolChange = .ok changed ∧
        settings.seedNsmValueBalance block.height changed = .ok result) ∧
      newInfos = infos.insert block.height
        ⟨result, settings.serializedSize block.block % 2 ^ 32⟩ := by
  have bound (first : Except ValueBalanceError (ValueBalance .nonNegative))
      (next : ValueBalance .nonNegative → Except ValueBalanceError (ValueBalance .nonNegative)) :
      first.bind next = (first >>= next) := rfl
  simp only [updateValuePools, bind_eq_ok, mapError_eq_ok, pure_eq_ok, Prod.mk.injEq, bound]
  constructor
  · rintro ⟨⟨⟩, checked, _, ⟨changed, added, seeded⟩, rfl, rfl⟩
    exact ⟨checked, ⟨changed, added, seeded⟩, rfl⟩
  · rintro ⟨checked, ⟨changed, added, seeded⟩, rfl⟩
    exact ⟨(), checked, result, ⟨changed, added, seeded⟩, rfl, rfl⟩

theorem seedNsmValueBalance_cases (seeded : settings.seedNsmValueBalance height pools = .ok result) :
    result.amount = pools.amount ∧ (settings.seedHeight ≠ some height → result = pools) := by
  unfold ChainSettings.seedNsmValueBalance at seeded
  split at seeded
  next atSeed =>
    rw [bind_eq_ok] at seeded
    obtain ⟨_, _, result⟩ := seeded
    rw [pure_eq_ok] at result
    rw [← result]
    exact ⟨rfl, fun different => absurd atSeed different⟩
  · rw [Except.ok.injEq] at seeded
    rw [seeded]
    exact ⟨rfl, fun _ => rfl⟩

def LeavesNsmUnseeded (settings : ChainSettings History) (block : ContextuallyVerifiedBlock) : Prop :=
  ∀ seed, settings.seedHeight = some seed → block.height ≤ seed →
    block.chainValuePoolChange.nsmValueBalance.zatoshis = 0

theorem poolSum_congr {first second : ValueBalance .nonNegative}
    (same : first.amount = second.amount) : first.poolSum = second.poolSum := by
  simp [ValueBalance.poolSum, same]

section

variable (updated : updateValuePools settings block pools infos = .ok (result, newInfos))
include updated

theorem revertValuePools_of_update (total : pools.poolSum ≤ maxMoney)
    (leaves : LeavesNsmUnseeded settings block)
    (unseeded : settings.seedHeight = some block.height → pools.nsmValueBalance.zatoshis = 0) :
    revertValuePools settings .tip block result = .ok pools := by
  obtain ⟨_, ⟨changed, added, seeded⟩, _⟩ := updateValuePools_eq_ok.mp updated
  obtain ⟨sums, _, _⟩ := ValueBalance.addChainValuePoolChange_eq_ok.mp added
  obtain ⟨amounts, elsewhere⟩ := seedNsmValueBalance_cases seeded
  obtain ⟨back, isBack⟩ : ∃ back, back = if settings.seedHeight = some block.height then
    result.setNsmValueBalanceAmount .zero else result := ⟨_, rfl⟩
  have backAmounts : back.amount = changed.amount := by
    rw [isBack]
    split
    · exact amounts
    · exact amounts
  have backNsm : back.nsmValueBalance.zatoshis -
      block.chainValuePoolChange.nsmValueBalance.zatoshis = pools.nsmValueBalance.zatoshis := by
    rw [isBack]
    split
    next atSeed =>
      have still := leaves block.height atSeed (le_refl _)
      have zero : (result.setNsmValueBalanceAmount .zero).nsmValueBalance.zatoshis = 0 := rfl
      have old := unseeded atSeed
      omega
    next different =>
      rw [elsewhere different]
      omega
  have reverted : back.addChainValuePoolChange block.chainValuePoolChange.neg = .ok pools := by
    refine ValueBalance.addChainValuePoolChange_eq_ok.mpr ⟨?_, ?_, total⟩
    · intro pool
      have negated : (block.chainValuePoolChange.neg.amount pool).zatoshis =
          -(block.chainValuePoolChange.amount pool).zatoshis := rfl
      have sum := sums pool
      rw [backAmounts, negated]
      omega
    · have negated : block.chainValuePoolChange.neg.nsmValueBalance.zatoshis =
          -block.chainValuePoolChange.nsmValueBalance.zatoshis := rfl
      rw [negated]
      omega
  simp only [revertValuePools]
  rw [← isBack, reverted]

theorem updateValuePools_total : result.poolSum ≤ maxMoney := by
  obtain ⟨_, ⟨_, added, seeded⟩, _⟩ := updateValuePools_eq_ok.mp updated
  obtain ⟨_, _, total⟩ := ValueBalance.addChainValuePoolChange_eq_ok.mp added
  rw [poolSum_congr (seedNsmValueBalance_cases seeded).1]
  exact total

theorem updateValuePools_unseeded (leaves : LeavesNsmUnseeded settings block)
    (isSeed : settings.seedHeight = some seed) (before : block.height < seed)
    (unseeded : pools.nsmValueBalance.zatoshis = 0) : result.nsmValueBalance.zatoshis = 0 := by
  obtain ⟨_, ⟨_, added, seeded⟩, _⟩ := updateValuePools_eq_ok.mp updated
  obtain ⟨_, _, _⟩ := ValueBalance.addChainValuePoolChange_eq_ok.mp added
  have still := leaves seed isSeed before.le
  have different : settings.seedHeight ≠ some block.height := by
    rw [isSeed]
    simp only [ne_eq, Option.some.injEq]
    omega
  rw [(seedNsmValueBalance_cases seeded).2 different]
  omega

end

end

end Chain

end Zakura.NonFinalized
