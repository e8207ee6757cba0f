import Zakura.NonFinalized.ChainFork

/-!
Popping the roots of a chain leaves the chain that starts at the last popped block.
-/

namespace Zakura.NonFinalized

open FiniteMap Fallible ChainIndex List Option Finmap Constraint TreeIndex

namespace Chain

variable {History : Type} [CommitmentHasher] {settings : ChainSettings History}
  {block : ContextuallyVerifiedBlock} {blocks first rest : List ContextuallyVerifiedBlock}
  {chain next full wide wideNext narrow : Chain History}
  {low finalized high cut height poppedLow position : Nat} {index : ChainIndex}

/-- A chain and one that lacks the blocks up to a cut, with the same trees from `low` on. -/
structure Shifted (cut low high : Nat) (wide narrow : Chain History) : Prop where
  blocks : ∀ height, narrow.blocks.lookup height =
    if height ≤ cut then none else wide.blocks.lookup height
  sprout : ∀ height, low ≤ height → height ≤ high →
    narrow.sprout.index.treeAt height = wide.sprout.index.treeAt height
  sapling : PoolShifted cut low high wide.sapling wide.saplingSubtrees narrow.sapling
    narrow.saplingSubtrees
  orchard : PoolShifted cut low high wide.orchard wide.orchardSubtrees narrow.orchard
    narrow.orchardSubtrees
  ironwood : PoolShifted cut low high wide.ironwood wide.ironwoodSubtrees narrow.ironwood
    narrow.ironwoodSubtrees
  histories : ∀ height, low ≤ height →
    narrow.historyTreesByHeight.lookup height = wide.historyTreesByHeight.lookup height
  pools : narrow.chainValuePools = wide.chainValuePools
  infos : ∀ height, cut < height →
    narrow.blockInfoByHeight.lookup height = wide.blockInfoByHeight.lookup height

def finalizedTip (height : Nat) (chain : Chain History) : Option (FinalizedTip History) := do
  let treestate ← chain.treestate height
  return {
    height := height
    sprout := treestate.noteCommitmentTrees.sprout
    sapling := treestate.noteCommitmentTrees.sapling
    orchard := treestate.noteCommitmentTrees.orchard
    ironwood := treestate.noteCommitmentTrees.ironwood
    history := treestate.historyTree
    chainValuePools := chain.chainValuePools }

theorem Shaped.treestate (shaped : Shaped low finalized high chain) (above : low ≤ height)
    (below : height ≤ high) : ∃ sprout sapling orchard ironwood history,
      chain.sprout.index.treeAt height = some sprout ∧ chain.sapling.treeAt height = some sapling ∧
      chain.orchard.treeAt height = some orchard ∧ chain.ironwood.treeAt height = some ironwood ∧
      chain.historyTreesByHeight.lookup height = some history ∧
      chain.treestate height = some ⟨⟨sprout, sapling, chain.saplingSubtrees.completedAt height,
        orchard, chain.orchardSubtrees.completedAt height, ironwood,
        chain.ironwoodSubtrees.completedAt height⟩, history⟩ := by
  obtain ⟨sprout, sproutFound⟩ := shaped.sprout.treeAt_isSome above
  obtain ⟨sapling, saplingFound⟩ := shaped.sapling.trees.treeAt_isSome above
  obtain ⟨orchard, orchardFound⟩ := shaped.orchard.trees.treeAt_isSome above
  obtain ⟨ironwood, ironwoodFound⟩ := shaped.ironwood.trees.treeAt_isSome above
  obtain ⟨history, historyFound⟩ :=
    isSome_iff_exists.mp ((shaped.histories height).mpr ⟨above, below⟩)
  refine ⟨sprout, sapling, orchard, ironwood, history, sproutFound, saplingFound, orchardFound,
    ironwoodFound, historyFound, ?_⟩
  simp [Chain.treestate, sproutTree, saplingTree, orchardTree, ironwoodTree, historyTree, heightOf,
    sproutFound, saplingFound, orchardFound, ironwoodFound, historyFound]

theorem Grown.restart (grown : Grown settings low finalized high chain) :
    ∃ tip fresh, chain.finalizedTip high = some tip ∧ tip.height = high ∧
      tip.chainValuePools = chain.chainValuePools ∧ new tip = .ok fresh ∧
      fresh.index = .empty ∧ Shifted high high high chain fresh := by
  obtain ⟨sprout, sapling, orchard, ironwood, history, sproutFound, saplingFound, orchardFound,
    ironwoodFound, historyFound, treestate⟩ := grown.treestate grown.sprout.nonempty (le_refl _)
  obtain ⟨tip, isTip⟩ : ∃ tip : FinalizedTip History,
    tip = ⟨high, sprout, sapling, orchard, ironwood, history, chain.chainValuePools⟩ := ⟨_, rfl⟩
  obtain ⟨fresh, isNew⟩ := new_succeeds tip
  have started := started_of_new isNew
  refine ⟨tip, fresh, ?_, by rw [isTip], by rw [isTip], isNew, started.index, ?_⟩
  · rw [finalizedTip, treestate, isTip]
    rfl
  subst isTip
  exact {
    blocks := by
      intro height
      rw [started.blocks, lookup_empty]
      split
      · rfl
      · rw [eq_comm, ← not_isSome_iff_eq_none, grown.within height]
        omega
    sprout := by
      intro height above below
      obtain rfl : height = high := by omega
      rw [started.sproutTree.2, sproutFound]
    sapling := started.saplingSubtrees ▸ grown.sapling.restart saplingFound
      (spans_of_new started.sapling).2
    orchard := started.orchardSubtrees ▸ grown.orchard.restart orchardFound
      (spans_of_new started.orchard).2
    ironwood := started.ironwoodSubtrees ▸ grown.ironwood.restart ironwoodFound
      (spans_of_new started.ironwood).2
    histories := by
      intro height above
      rw [started.histories, lookup_insert_ite]
      split
      next same =>
        rw [same, historyFound]
      rename_i different
      have different : height ≠ high := different
      rw [lookup_empty, eq_comm, ← not_isSome_iff_eq_none, grown.histories height]
      omega
    pools := started.pools
    infos := by
      intro height above
      rw [started.infos, lookup_empty, eq_comm, ← not_isSome_iff_eq_none]
      intro found
      have inside := grown.infos height found
      omega }

theorem Shaped.lastHistory (shaped : Shaped low finalized high chain) :
    chain.historyBlockCommitmentTree = chain.historyTreesByHeight.lookup high := by
  have last : FiniteMap.lastKey chain.historyTreesByHeight = some high :=
    lastKey_of_greatest ((shaped.histories high).mpr ⟨shaped.sprout.nonempty, le_refl _⟩)
      fun other found => ((shaped.histories other).mp found).2
  rw [historyBlockCommitmentTree, lastValue, last]
  rfl

theorem Pushed.restart (wideGrown : Grown settings low finalized high wide)
    (narrowShaped : Shaped cut cut high narrow) (shifted : Shifted cut cut high wide narrow)
    (extension : Extends settings high block wide) (pushed : Pushed settings block wide wideNext)
    (updated : narrow.index.updateWithBlock settings block = .ok index) :
    ∃ narrowNext, Extends settings high block narrow ∧ Pushed settings block narrow narrowNext ∧
      narrowNext.index = index ∧ Shifted cut cut (high + 1) wideNext narrowNext := by
  have cut_le := narrowShaped.finalized_le
  have atTop := extension.height
  obtain ⟨current, tree, sproutTip, sproutUpdated, sproutAdded⟩ := pushed.sprout
  obtain ⟨parent, history, sapling, orchard, ironwood, historyPushed⟩ := pushed.history
  obtain ⟨checked, changed, infos⟩ := updateValuePools_eq_ok.mp pushed.pools
  have saplingPushed := pushed.sapling
  have orchardPushed := pushed.orchard
  have ironwoodPushed := pushed.ironwood
  have wideSproutAdded := (SproutIndex.addTreeAndAnchor_eq_ok.mp sproutAdded).1
  rw [atTop] at saplingPushed orchardPushed ironwoodPushed wideSproutAdded
  obtain ⟨narrowSprout, narrowSproutAdded⟩ := narrowShaped.sprout.add tree
  obtain ⟨narrowSapling, narrowSaplingSubtrees, saplingMoves, narrowSaplingPushed, saplingTip,
    saplingShifted⟩ := saplingPushed.restart wideGrown.sapling narrowShaped.sapling shifted.sapling
      narrow.maxBlockHeight extension.sapling
  obtain ⟨narrowOrchard, narrowOrchardSubtrees, orchardMoves, narrowOrchardPushed, orchardTip,
    orchardShifted⟩ := orchardPushed.restart wideGrown.orchard narrowShaped.orchard shifted.orchard
      narrow.maxBlockHeight extension.orchard
  obtain ⟨narrowIronwood, narrowIronwoodSubtrees, ironwoodMoves, narrowIronwoodPushed, ironwoodTip,
    ironwoodShifted⟩ := ironwoodPushed.restart wideGrown.ironwood narrowShaped.ironwood
      shifted.ironwood narrow.maxBlockHeight extension.ironwood
  have parentTree : narrow.historyBlockCommitmentTree = some parent := by
    rw [narrowShaped.lastHistory, shifted.histories high cut_le, ← wideGrown.lastHistory,
      historyPushed.parentTree]
  have sproutTipNarrow : narrow.sprout.index.treeForTip = some current := by
    rw [narrowShaped.sprout.treeForTip, shifted.sprout high cut_le (le_refl _),
      ← wideGrown.sprout.treeForTip, sproutTip]
  have fresh : narrow.historyTreesByHeight.lookup block.height = none := by
    rw [shifted.histories _ (by omega), historyPushed.fresh]
  rw [← shifted.pools] at checked changed
  rw [← atTop] at narrowSproutAdded narrowSaplingPushed narrowOrchardPushed narrowIronwoodPushed
  refine ⟨⟨narrow.blocks.insert block.height block, index, ⟨narrowSprout, _⟩, _, _, _, _, _, _,
    narrow.historyTreesByHeight.insert block.height history, wideNext.chainValuePools,
    narrow.blockInfoByHeight.insert block.height ⟨wideNext.chainValuePools, _⟩⟩,
    ⟨atTop, extension.nsm, saplingMoves, orchardMoves, ironwoodMoves⟩, {
      blocks := rfl
      index := updated
      sprout := ⟨current, tree, sproutTipNarrow, sproutUpdated,
        SproutIndex.addTreeAndAnchor_eq_ok.mpr ⟨addTreeAndAnchor_eq_ok.mp narrowSproutAdded, rfl⟩⟩
      sapling := narrowSaplingPushed
      orchard := narrowOrchardPushed
      ironwood := narrowIronwoodPushed
      history := ⟨parent, history, sapling, orchard, ironwood, parentTree,
        saplingTip.trans historyPushed.saplingTree, orchardTip.trans historyPushed.orchardTree,
        ironwoodTip.trans historyPushed.ironwoodTree, historyPushed.pushed, fresh, rfl⟩
      pools := updateValuePools_eq_ok.mpr ⟨checked, changed, rfl⟩ }, rfl, ?_⟩
  rw [atTop] at narrowSproutAdded
  exact {
    blocks := by
      intro height
      rw [pushed.blocks, lookup_insert_ite, lookup_insert_ite]
      by_cases top : height = block.height
      · rw [if_pos top, if_pos top, if_neg (by omega)]
      · rw [if_neg top, if_neg top, shifted.blocks height]
    sprout := TreeIndex.Added.agree wideGrown.sprout narrowShaped.sprout wideSproutAdded
      (addTreeAndAnchor_eq_ok.mp narrowSproutAdded) cut_le shifted.sprout
    sapling := saplingShifted
    orchard := orchardShifted
    ironwood := ironwoodShifted
    histories := by
      intro height above
      rw [historyPushed.histories, lookup_insert_ite, lookup_insert_ite,
        shifted.histories height above]
    pools := rfl
    infos := by
      intro height above
      rw [infos, lookup_insert_ite, lookup_insert_ite, shifted.infos height above] }

theorem Shaped.firstKey (shaped : Shaped low finalized high chain) (nonempty : finalized < high) :
    chain.rootHeight = some (finalized + 1) := by
  have present := isSome_iff_exists.mp
    ((shaped.within (finalized + 1)).mpr ⟨by omega, nonempty⟩)
  refine firstKey_eq_some.mpr ⟨mem_keys_iff.mpr present, ?_⟩
  intro other member
  obtain ⟨_, found⟩ := mem_keys_iff.mp member
  exact ((shaped.within other).mp (by rw [found]; rfl)).1

theorem Shaped.popRoot (shaped : Shaped low finalized high chain) (low_le : low ≤ finalized + 1)
    (more : finalized + 1 < high) (isRoot : chain.blocks.lookup (finalized + 1) = some block)
    (reverted : chain.index.revertBlock settings block = .ok index) :
    ∃ treestate popped, Chain.popRoot settings chain = .ok ((block, treestate), popped) ∧
      popped.index = index ∧ Shaped (finalized + 2) (finalized + 1) high popped ∧
      Shifted (finalized + 1) (finalized + 2) high chain popped := by
  have ownHeight := shaped.ownHeight _ _ isRoot
  obtain ⟨sprout, sapling, orchard, ironwood, history, _, _, _, _, _, treestate⟩ :=
    shaped.treestate low_le more.le
  obtain ⟨clearedSprout, nextSprout, ran, restored, _, sproutRemoved⟩ :=
    shaped.sprout.removeRoot low_le more
  have sproutRemovedAll : chain.sprout.index.removeTreeAndAnchor .sprout .root (some high)
      (finalized + 1) = .ok nextSprout := by
    rw [removeTreeAndAnchor, bind_eq_ok]
    exact ⟨clearedSprout, ran, restored⟩
  obtain ⟨poppedSprout, sproutPopped, rfl, keyed⟩ :=
    shaped.keyed.removeTreeAndAnchor sproutRemovedAll
  obtain ⟨nextSapling, saplingPopped, saplingShifted, saplingSpans⟩ :=
    shaped.sapling.popRoot low_le more
  obtain ⟨nextOrchard, orchardPopped, orchardShifted, orchardSpans⟩ :=
    shaped.orchard.popRoot low_le more
  obtain ⟨nextIronwood, ironwoodPopped, ironwoodShifted, ironwoodSpans⟩ :=
    shaped.ironwood.popRoot low_le more
  have blocks (height : Nat) : (chain.blocks.erase (finalized + 1)).lookup height =
      if height ≤ finalized + 1 then none else chain.blocks.lookup height := by
    rw [lookup_erase_ite]
    by_cases root : height = finalized + 1
    · rw [if_pos root, if_pos (by omega)]
    rw [if_neg root]
    split
    · rw [← not_isSome_iff_eq_none, shaped.within height]
      omega
    · rfl
  have histories (height : Nat) :
      (FiniteMap.retain (fun key _ => finalized + 1 < key) chain.historyTreesByHeight).lookup
        height = if finalized + 1 < height then chain.historyTreesByHeight.lookup height
          else none := by
    rw [lookup_retain]
    cases chain.historyTreesByHeight.lookup height <;> simp [Option.filter]
  have tipHeight : FiniteMap.lastKey (chain.blocks.erase (finalized + 1)) = some high := by
    refine lastKey_of_greatest ?_ fun other found => ?_
    · rw [blocks, if_neg (by omega), shaped.within]
      omega
    · rw [blocks] at found
      split at found
      · simp at found
      · exact ((shaped.within other).mp found).2
  refine ⟨_, ⟨chain.blocks.erase (finalized + 1), index, poppedSprout, nextSapling, _, nextOrchard,
    _, nextIronwood, _, retain (fun key _ => finalized + 1 < key) chain.historyTreesByHeight,
    chain.chainValuePools, chain.blockInfoByHeight.erase (finalized + 1)⟩, by
      simp only [Chain.popRoot, bind_eq_ok, expect_eq_ok, pure_eq_ok]
      refine ⟨finalized + 1, shaped.firstKey (by omega), _, treestate, block, isRoot, _, ?_, rfl⟩
      simp only [Chain.revertChainWith, bind_eq_ok, pure_eq_ok, maxBlockHeight, tipHeight, ownHeight]
      exact ⟨index, reverted, poppedSprout, sproutPopped, nextSapling, saplingPopped, nextOrchard,
        orchardPopped, nextIronwood, ironwoodPopped, _, rfl, chain.chainValuePools, rfl, rfl⟩,
    rfl, ?_, ?_⟩
  · exact {
      within := by
        intro height
        rw [blocks]
        split
        · simp only [isSome_none, Bool.false_eq_true, false_iff]
          omega
        · rw [shaped.within height]
          omega
      ownHeight := by
        intro height other found
        rw [blocks, ite_none_left_eq_some] at found
        exact shaped.ownHeight height other found.2
      sprout := sproutRemoved.spans shaped.sprout low_le more
      keyed := keyed
      sapling := saplingSpans
      orchard := orchardSpans
      ironwood := ironwoodSpans
      histories := by
        intro height
        rw [histories]
        split
        · rw [shaped.histories height]
          omega
        · simp only [isSome_none, Bool.false_eq_true, false_iff]
          omega }
  · exact {
      blocks := blocks
      sprout := fun height above _ => sproutRemoved.treeAt (by omega)
      sapling := saplingShifted
      orchard := orchardShifted
      ironwood := ironwoodShifted
      histories := by
        intro height above
        rw [histories, if_pos (by omega)]
      pools := rfl
      infos := by
        intro height above
        rw [lookup_erase_ite, if_neg (by omega)] }

omit [CommitmentHasher] in
theorem Shifted.trans {earlier later lowFirst lowSecond : Nat} {first second third : Chain History}
    (cut_le : earlier ≤ later) (low_le : lowFirst ≤ lowSecond)
    (start : Shifted earlier lowFirst high first second)
    (finish : Shifted later lowSecond high second third) :
    Shifted later lowSecond high first third where
  blocks := by
    intro height
    rw [finish.blocks]
    split
    · rfl
    · rw [start.blocks, if_neg (by omega)]
  sprout := by
    intro height above below
    rw [finish.sprout height above below, start.sprout height (by omega) below]
  sapling := start.sapling.trans cut_le low_le finish.sapling
  orchard := start.orchard.trans cut_le low_le finish.orchard
  ironwood := start.ironwood.trans cut_le low_le finish.ironwood
  histories := by
    intro height above
    rw [finish.histories height above, start.histories height (by omega)]
  pools := finish.pools.trans start.pools
  infos := by
    intro height above
    rw [finish.infos height above, start.infos height (by omega)]

theorem Shaped.shifted_self (shaped : Shaped low finalized high chain) :
    Shifted finalized (finalized + 1) high chain chain where
  blocks := by
    intro height
    split
    · rw [← not_isSome_iff_eq_none, shaped.within height]
      omega
    · rfl
  sprout := fun _ _ _ => rfl
  sapling := shaped.sapling.shifted_self _
  orchard := shaped.orchard.shifted_self _
  ironwood := shaped.ironwood.shifted_self _
  histories := fun _ _ => rfl
  pools := rfl
  infos := fun _ _ => rfl

def revertsOf (settings : ChainSettings History) (blocks : List ContextuallyVerifiedBlock) :
    List ChainUpdate :=
  blocks.flatMap (·.reverts settings)

theorem Shaped.popRoots (shaped : Shaped low finalized high chain)
    (balances : chain.index.BalancesHold) (low_le : low ≤ finalized + 1)
    (fewer : finalized + blocks.length < high)
    (listed : ∀ position block, blocks[position]? = some block → chain.blocks.lookup (finalized + 1
      + position) = some block)
    (ran : Journal.Run (ChainIndex.journal settings).Undone (revertsOf settings blocks) chain.index
      index) : ((∀ address movements, movements <+: movementsOf settings blocks →
        negativeAllowed.Holds (chain.index.balance address - moved address movements)) →
      ∃ popped lowest, Chain.popRoots settings blocks.length chain = .ok popped ∧
        popped.index = index ∧ Shaped lowest (finalized + blocks.length) high popped ∧
        Shifted (finalized + blocks.length) (finalized + blocks.length + 1) high chain popped) ∧
    ((∃ popped, Chain.popRoots settings blocks.length chain = .ok popped) →
      ∀ address movements, movements <+: movementsOf settings blocks → negativeAllowed.Holds
          (chain.index.balance address - moved address movements)) := by
  induction blocks generalizing chain low finalized with
  | nil =>
    refine ⟨fun _ => ⟨chain, low, rfl, (Journal.run_nil.mp ran).symm, shaped,
      shaped.shifted_self⟩, ?_⟩
    intro _ address movements early
    rw [movementsOf, flatMap_nil, prefix_nil] at early
    rw [early, moved_nil, sub_zero]
    exact balances address
  | cons block others ih =>
    rw [length_cons] at fewer
    obtain ⟨middle, ranBlock, ranOthers⟩ := Journal.run_append.mp ran
    have rootBlock := listed 0 block rfl
    have movedBalance (address : Address) : middle.balance address =
        chain.index.balance address - moved address (block.movements settings) := by
      rw [run_undone_balance ranBlock, block.reverts_movements settings]
    -- Both directions start with a block that is taken back within range.
    have next (reversible : ChainIndex.Reversible settings block chain.index) :
        ∃ treestate remaining,
          Chain.popRoot settings chain = .ok ((block, treestate), remaining) ∧
          remaining.index = middle ∧ remaining.index.BalancesHold ∧
          Shaped (finalized + 2) (finalized + 1) high remaining ∧
          Shifted (finalized + 1) (finalized + 2) high chain remaining := by
      have reverted := (revertBlock_eq_ok balances).mpr ⟨ranBlock, reversible⟩
      obtain ⟨treestate, remaining, popped, isMiddle, facts⟩ :=
        shaped.popRoot low_le (by omega) rootBlock reverted
      refine ⟨treestate, remaining, popped, isMiddle, ?_, facts⟩
      intro address
      rw [isMiddle, movedBalance]
      exact reversible address _ (prefix_refl _)
    have remainingListed {remaining : Chain History}
        (shifted : Shifted (finalized + 1) (finalized + 2) high chain remaining) :
        ∀ position other, others[position]? = some other →
          remaining.blocks.lookup (finalized + 1 + 1 + position) = some other := by
      intro position other found
      rw [shifted.blocks, if_neg (by omega),
        show finalized + 1 + 1 + position = finalized + 1 + (position + 1) by omega]
      exact listed (position + 1) other found
    have split (address : Address) :
        (∀ movements, movements <+: movementsOf settings (block :: others) →
          negativeAllowed.Holds
            (chain.index.balance address - moved address movements)) ↔
        (∀ movements, movements <+: block.movements settings →
          negativeAllowed.Holds
            (chain.index.balance address - moved address movements)) ∧
        ∀ movements, movements <+: movementsOf settings others →
          negativeAllowed.Holds (middle.balance address - moved address movements) := by
      rw [movementsOf, flatMap_cons, forall_start_append]
      simp only [moved_append, movedBalance, ← sub_sub]
      rfl
    simp only [split]
    constructor
    · intro inRange
      obtain ⟨treestate, remaining, popped, isMiddle, remainingBalances, remainingShaped,
        remainingShifted⟩ := next fun address => (inRange address).1
      obtain ⟨last, lowest, ranPops, isIndex, lastShaped, lastShifted⟩ :=
        (ih remainingShaped remainingBalances (by omega) (by omega)
          (remainingListed remainingShifted) (isMiddle ▸ ranOthers)).1
          (by rw [isMiddle]; exact fun address => (inRange address).2)
      rw [length_cons, Nat.add_comm others.length, ← Nat.add_assoc]
      refine ⟨last, lowest, ?_, isIndex, lastShaped,
        remainingShifted.trans (by omega) (by omega) lastShifted⟩
      rw [Nat.add_comm 1, Chain.popRoots, popped]
      exact ranPops
    rintro ⟨last, ranPops⟩
    rw [length_cons, Chain.popRoots, bind_eq_ok] at ranPops
    obtain ⟨⟨_, other⟩, isPopped, ranPops⟩ := ranPops
    obtain ⟨_, reverted⟩ :=
      revertBlock_of_popRoot isPopped (shaped.firstKey (by omega)) rootBlock
    have reversible := ((revertBlock_eq_ok balances).mp reverted).2
    obtain ⟨treestate, remaining, popped, isMiddle, remainingBalances, remainingShaped,
      remainingShifted⟩ := next reversible
    rw [popped, Except.ok.injEq, Prod.mk.injEq] at isPopped
    obtain ⟨_, rfl⟩ := isPopped
    have later := (ih remainingShaped remainingBalances (by omega) (by omega)
      (remainingListed remainingShifted) (isMiddle ▸ ranOthers)).2 ⟨last, ranPops⟩
    rw [isMiddle] at later
    exact fun address => ⟨reversible address, later address⟩

end Chain

namespace Sample

local instance : CommitmentHasher := hasher

end Sample

end Zakura.NonFinalized
