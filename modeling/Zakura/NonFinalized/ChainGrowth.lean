import Zakura.NonFinalized.ChainSteps

/-!
The chains that grow block by block from a finalized tip: the invariant of pushing,
and popping the tip as its inverse.
-/

namespace Zakura.NonFinalized

open HeaderChain (Hash)
open FiniteMap Fallible TreeIndex ChainIndex Finmap Option

namespace Chain

variable {History : Type} [CommitmentHasher] {settings : ChainSettings History}
  {block : ContextuallyVerifiedBlock} {chain next : Chain History} {low finalized high : Nat}

/-- The blocks above a finalized height, with the trees of the heights from `low` on. -/
structure Shaped (low finalized high : Nat) (chain : Chain History) : Prop where
  within : ∀ height, (chain.blocks.lookup height).isSome ↔ finalized < height ∧ height ≤ high
  ownHeight : ∀ height block, chain.blocks.lookup height = some block → block.height = height
  sprout : chain.sprout.index.Spans .sprout low high
  keyed : chain.sprout.Keyed
  sapling : PoolSpans .sapling chain.sapling chain.saplingSubtrees low finalized high
  orchard : PoolSpans .orchard chain.orchard chain.orchardSubtrees low finalized high
  ironwood : PoolSpans .ironwood chain.ironwood chain.ironwoodSubtrees low finalized high
  histories : ∀ height, (chain.historyTreesByHeight.lookup height).isSome ↔
    low ≤ height ∧ height ≤ high

structure Grown (settings : ChainSettings History) (low finalized high : Nat)
    (chain : Chain History) : Prop extends Shaped low finalized high chain where
  filed : ∀ hash height, chain.index.heightByHash.lookup hash = some height ↔
    ∃ block, chain.blocks.lookup height = some block ∧ block.hash = hash
  index : chain.index.WellFormed
  balances : chain.index.BalancesHold
  infos : ∀ height, (chain.blockInfoByHeight.lookup height).isSome →
    finalized < height ∧ height ≤ high
  total : finalized < high → chain.chainValuePools.poolSum ≤ maxMoney
  unseeded : ∀ seed, settings.seedHeight = some seed → high < seed →
    chain.chainValuePools.nsmValueBalance.zatoshis = 0

structure Extends (settings : ChainSettings History) (parent : Nat)
    (block : ContextuallyVerifiedBlock) (chain : Chain History) : Prop where
  height : block.height = parent + 1
  nsm : LeavesNsmUnseeded settings block
  sapling : RootsMove .sapling block.block chain.sapling
  orchard : RootsMove .orchard block.block chain.orchard
  ironwood : RootsMove .ironwood block.block chain.ironwood

section

variable (shaped : Shaped low finalized high chain)
include shaped

theorem Shaped.finalized_le : finalized ≤ high :=
  shaped.sapling.finalized_le

theorem Shaped.lastKey (nonempty : finalized < high) : chain.maxBlockHeight = some high :=
  lastKey_of_greatest ((shaped.within high).mpr ⟨nonempty, le_refl _⟩)
    fun other found => ((shaped.within other).mp found).2

theorem Shaped.block_absent : chain.blocks.lookup (high + 1) = none := by
  by_contra present
  have inside := (shaped.within (high + 1)).mp (isSome_iff_ne_none.mpr present)
  omega

end

structure Started (tip : FinalizedTip History) (chain : Chain History) : Prop where
  blocks : chain.blocks = ∅
  index : chain.index = .empty
  sprout : SproutIndex.empty.addTreeAndAnchor tip.height tip.sprout = .ok chain.sprout
  sapling : TreeIndex.empty.addTreeAndAnchor .sapling tip.height tip.sapling = .ok chain.sapling
  saplingSubtrees : chain.saplingSubtrees = ∅
  orchard : TreeIndex.empty.addTreeAndAnchor .orchard tip.height tip.orchard = .ok chain.orchard
  orchardSubtrees : chain.orchardSubtrees = ∅
  ironwood : TreeIndex.empty.addTreeAndAnchor .ironwood tip.height tip.ironwood = .ok chain.ironwood
  ironwoodSubtrees : chain.ironwoodSubtrees = ∅
  histories : chain.historyTreesByHeight =
    (∅ : FiniteMap Nat History).insert tip.height tip.history
  pools : chain.chainValuePools = tip.chainValuePools
  infos : chain.blockInfoByHeight = ∅

variable {tip : FinalizedTip History} {height : Nat}

theorem started_of_new (started : new tip = .ok chain) : Started tip chain := by
  simp only [new, bind_eq_ok, pure_eq_ok, addHistoryTree_eq_ok] at started
  obtain ⟨_, sproutAdded, _, saplingAdded, _, orchardAdded, _,
    ironwoodAdded, _, ⟨_, rfl⟩, rfl⟩ := started
  exact ⟨rfl, rfl, sproutAdded, saplingAdded, rfl, orchardAdded, rfl, ironwoodAdded, rfl, rfl, rfl,
    rfl⟩

theorem new_succeeds (tip : FinalizedTip History) : ∃ chain, new tip = .ok chain := by
  obtain ⟨sprout, sproutAdded⟩ := add_to_empty .sprout tip.height tip.sprout
  obtain ⟨sapling, saplingAdded⟩ := add_to_empty .sapling tip.height tip.sapling
  obtain ⟨orchard, orchardAdded⟩ := add_to_empty .orchard tip.height tip.orchard
  obtain ⟨ironwood, ironwoodAdded⟩ := add_to_empty .ironwood tip.height tip.ironwood
  have sproutNew : SproutIndex.empty.index.addTreeAndAnchor .sprout tip.height tip.sprout =
    .ok sprout := sproutAdded
  simp [new, SproutIndex.addTreeAndAnchor, sproutNew, saplingAdded, orchardAdded, ironwoodAdded,
    addHistoryTree, bind, Except.bind, pure, Except.pure]

theorem Started.sproutTree (started : Started tip chain) :
    chain.sprout.index.Spans .sprout tip.height tip.height ∧
      chain.sprout.index.treeAt tip.height = some tip.sprout :=
  spans_of_new
    (addTreeAndAnchor_eq_ok.mpr (SproutIndex.addTreeAndAnchor_eq_ok.mp started.sprout).1)

theorem new_grown (isNew : new tip = .ok chain) (unseeded : ∀ seed, settings.seedHeight = some seed
      → tip.height < seed → tip.chainValuePools.nsmValueBalance.zatoshis = 0) :
    Grown settings tip.height tip.height tip.height chain := by
  have started := started_of_new isNew
  exact {
    within := by
      intro height
      simp only [started.blocks, lookup_empty, isSome_none, Bool.false_eq_true,
        false_iff]
      omega
    ownHeight := by
      intro height block found
      simp [started.blocks, lookup_empty] at found
    filed := by
      intro hash height
      simp [started.index, started.blocks, ChainIndex.empty, lookup_empty]
    index := started.index ▸ empty_wellFormed
    balances := started.index ▸ empty_balancesHold
    sprout := started.sproutTree.1
    keyed := SproutIndex.keyed_empty.add started.sprout
    sapling := ⟨(spans_of_new started.sapling).1, le_refl _,
      fun _ _ => started.saplingSubtrees ▸ Subtrees.ordered_empty _ _ _⟩
    orchard := ⟨(spans_of_new started.orchard).1, le_refl _,
      fun _ _ => started.orchardSubtrees ▸ Subtrees.ordered_empty _ _ _⟩
    ironwood := ⟨(spans_of_new started.ironwood).1, le_refl _,
      fun _ _ => started.ironwoodSubtrees ▸ Subtrees.ordered_empty _ _ _⟩
    histories := by
      intro height
      rw [started.histories, lookup_insert_ite]
      split
      · simp only [isSome_some, true_iff]
        omega
      · simp only [lookup_empty, isSome_none, Bool.false_eq_true, false_iff]
        omega
    infos := by
      intro height found
      simp [started.infos, lookup_empty] at found
    total := fun above => absurd above (lt_irrefl _)
    unseeded := started.pools ▸ unseeded }

theorem Pushed.grown (grown : Grown settings low finalized high chain)
    (extension : Extends settings high block chain) (pushed : Pushed settings block chain next) :
    Grown settings low finalized (high + 1) next := by
  have below := grown.finalized_le
  have atTop := extension.height
  have heights := updateWithBlock_heights grown.index pushed.index
  obtain ⟨_, _, _, _, sproutAdded⟩ := pushed.sprout
  obtain ⟨_, history, _, _, _, historyPushed⟩ := pushed.history
  have infos := (updateValuePools_eq_ok.mp pushed.pools).2.2
  have sproutIndex := (SproutIndex.addTreeAndAnchor_eq_ok.mp sproutAdded).1
  have sapling := pushed.sapling
  have orchard := pushed.orchard
  have ironwood := pushed.ironwood
  rw [atTop] at sproutIndex sapling orchard ironwood
  exact {
    within := by
      intro height
      rw [pushed.blocks, lookup_insert_ite, atTop]
      split
      · simp only [isSome_some, true_iff]
        omega
      · rw [grown.within height]
        omega
    ownHeight := by
      rw [pushed.blocks]
      exact forall_lookup_insert grown.ownHeight rfl
    filed := by
      intro hash height
      rw [heights.lookup, grown.filed, List.mem_singleton, Prod.mk.injEq, pushed.blocks,
        lookup_insert_ite]
      by_cases top : height = block.height
      · rw [if_pos top, top, atTop, grown.block_absent]
        simp [eq_comm]
      · rw [if_neg top]
        simp [top]
    index := updateWithBlock_wellFormed grown.index pushed.index
    balances := updateWithBlock_balancesHold grown.index grown.balances pushed.index
    sprout := sproutIndex.spans grown.sprout
    keyed := grown.keyed.add sproutAdded
    sapling := sapling.spans grown.sapling extension.sapling
    orchard := orchard.spans grown.orchard extension.orchard
    ironwood := ironwood.spans grown.ironwood extension.ironwood
    histories := by
      have start := grown.sprout.nonempty
      intro height
      rw [historyPushed.histories, lookup_insert_ite]
      split
      · simp only [isSome_some, true_iff]
        omega
      · rw [grown.histories height]
        omega
    infos := by
      intro height found
      rw [infos, lookup_insert_ite] at found
      split at found
      · omega
      · have old := grown.infos height found
        omega
    total := fun _ => updateValuePools_total pushed.pools
    unseeded := by
      intro seed isSeed before
      exact updateValuePools_unseeded pushed.pools extension.nsm isSeed (by omega)
        (grown.unseeded seed isSeed (by omega)) }

structure SameInternalState (first second : Chain History) : Prop where
  others : { first with sprout := second.sprout } = second
  sproutIndex : first.sprout.index = second.sprout.index
  sproutTrees : ∀ anchor, (first.sprout.treesByAnchor.lookup anchor).map (·.root .sprout) =
    (second.sprout.treesByAnchor.lookup anchor).map (·.root .sprout)

theorem sameInternalState_of_keyed {first second : Chain History}
    (others : { first with sprout := second.sprout } = second)
    (sproutIndex : first.sprout.index = second.sprout.index) (firstKeyed : first.sprout.Keyed)
    (secondKeyed : second.sprout.Keyed) : SameInternalState first second := by
  refine ⟨others, sproutIndex, ?_⟩
  intro anchor
  rw [firstKeyed.lookup_root, secondKeyed.lookup_root, sproutIndex]

theorem Pushed.popTip (grown : Grown settings low finalized high chain)
    (nonempty : finalized < high) (extension : Extends settings high block chain)
    (pushed : Pushed settings block chain next)
    (reversible : ChainIndex.Reversible settings block next.index) {sprout : SproutIndex}
    (sproutIndex : sprout.index = next.sprout.index) (keyed : sprout.Keyed) :
    ∃ restored : SproutIndex, Chain.popTip settings { next with sprout := sprout } =
        .ok { chain with sprout := restored } ∧
      restored.index = chain.sprout.index ∧ restored.Keyed := by
  have grownNext := pushed.grown grown extension
  have atTop := extension.height
  have remainingTip := grown.lastKey nonempty
  obtain ⟨_, _, _, _, sproutAdded⟩ := pushed.sprout
  obtain ⟨_, history, _, _, _, historyPushed⟩ := pushed.history
  have infos := (updateValuePools_eq_ok.mp pushed.pools).2.2
  have sproutAddedIndex := (SproutIndex.addTreeAndAnchor_eq_ok.mp sproutAdded).1
  have sapling := pushed.sapling
  have orchard := pushed.orchard
  have ironwood := pushed.ironwood
  rw [atTop] at sproutAddedIndex sapling orchard ironwood
  have isTip : (some high).any (high + 1 < ·) = false := by simp
  have sproutRemoved := sproutAddedIndex.removeTip grown.sprout isTip
  rw [← sproutIndex] at sproutRemoved
  obtain ⟨restored, sproutPopped, restoredIndex, restoredKeyed⟩ :=
    keyed.removeTreeAndAnchor sproutRemoved
  obtain ⟨saplingPopped, saplingSubtrees⟩ := sapling.popTip grown.sapling isTip
  obtain ⟨orchardPopped, orchardSubtrees⟩ := orchard.popTip grown.orchard isTip
  obtain ⟨ironwoodPopped, ironwoodSubtrees⟩ := ironwood.popTip grown.ironwood isTip
  have indexReverted := revertBlock_of_update grown.index pushed.index
    grownNext.balances reversible
  have poolsReverted := revertValuePools_of_update pushed.pools (grown.total nonempty) extension.nsm
    (fun atSeed => grown.unseeded _ atSeed (by omega))
  have blocksErased : next.blocks.erase (high + 1) = chain.blocks := by
    rw [pushed.blocks, atTop, erase_insert grown.block_absent]
  have historiesErased : next.historyTreesByHeight.erase (high + 1) = chain.historyTreesByHeight := by
    rw [historyPushed.histories, ← atTop, erase_insert historyPushed.fresh]
  have infosErased : next.blockInfoByHeight.erase (high + 1) = chain.blockInfoByHeight := by
    have absent : chain.blockInfoByHeight.lookup (high + 1) = none := by
      by_contra present
      have old := grown.infos (high + 1) (isSome_iff_ne_none.mpr present)
      omega
    rw [infos, atTop, erase_insert absent]
  have historyRemoved : removeHistoryTree .tip (high + 1) next.historyTreesByHeight =
      .ok chain.historyTreesByHeight := by
    have present : (next.historyTreesByHeight.lookup (high + 1)).isSome = true := by
      rw [historyPushed.histories, atTop, lookup_insert]
      rfl
    rw [removeHistoryTree, if_pos present, historiesErased]
  have tipBlock : next.blocks.lookup (high + 1) = some block := by
    rw [pushed.blocks, atTop, lookup_insert]
  have notEmpty : ¬chain.blocks.keys = ∅ := by
    intro empty
    have none : chain.maxBlockHeight = none := lastKey_eq_none.mpr empty
    simp [remainingTip] at none
  refine ⟨restored, ?_, restoredIndex, restoredKeyed⟩
  simp only [Chain.popTip, bind_eq_ok, expect_eq_ok, maxBlockHeight]
  refine ⟨high + 1, grownNext.lastKey (by omega), block, tipBlock, ?_⟩
  rw [blocksErased, saplingSubtrees, orchardSubtrees, ironwoodSubtrees]
  simp only [isEmpty, notEmpty, decide_false, Bool.false_eq_true, if_false]
  simp only [Chain.revertChainWith, bind_eq_ok, pure_eq_ok]
  refine ⟨chain.index, indexReverted, restored, ?_, chain.sapling, ?_, chain.orchard, ?_,
    chain.ironwood, ?_, chain.historyTreesByHeight, ?_, chain.chainValuePools, poolsReverted, ?_⟩
  · exact atTop ▸ remainingTip ▸ sproutPopped
  · exact atTop ▸ remainingTip ▸ saplingPopped
  · exact atTop ▸ remainingTip ▸ orchardPopped
  · exact atTop ▸ remainingTip ▸ ironwoodPopped
  · exact atTop ▸ historyRemoved
  · rw [atTop, infosErased]

omit [CommitmentHasher] in
theorem revertBlock_of_popTip {popped : Chain History}
    (isPopped : chain.popTip settings = .ok popped) (isTip : chain.maxBlockHeight = some height)
    (tipBlock : chain.blocks.lookup height = some block) :
    ∃ index, chain.index.revertBlock settings block = .ok index := by
  simp only [Chain.popTip, bind_eq_ok, expect_eq_ok, ite_error_eq_ok, isTip, some.injEq]
    at isPopped
  obtain ⟨_, rfl, _, found, _, reverted⟩ := isPopped
  obtain rfl := mem_unique tipBlock found
  rw [Chain.revertChainWith, bind_eq_ok] at reverted
  obtain ⟨index, reverted, _⟩ := reverted
  exact ⟨index, reverted⟩

omit [CommitmentHasher] in
theorem revertBlock_of_popRoot
    {popped : (ContextuallyVerifiedBlock × Treestate History) × Chain History}
    (isPopped : chain.popRoot settings = .ok popped) (isRoot : chain.rootHeight = some height)
    (rootBlock : chain.blocks.lookup height = some block) :
    ∃ index, chain.index.revertBlock settings block = .ok index := by
  simp only [Chain.popRoot, bind_eq_ok, expect_eq_ok, pure_eq_ok, isRoot, some.injEq]
    at isPopped
  obtain ⟨_, rfl, _, _, _, found, _, reverted, _⟩ := isPopped
  obtain rfl := mem_unique rootBlock found
  rw [Chain.revertChainWith, bind_eq_ok] at reverted
  obtain ⟨index, reverted, _⟩ := reverted
  exact ⟨index, reverted⟩

end Chain

end Zakura.NonFinalized
