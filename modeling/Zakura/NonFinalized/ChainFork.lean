import Mathlib.Order.Interval.Finset.Nat
import Zakura.NonFinalized.ChainGrowth

/-!
Forking a chain at one of its blocks gives the chain of the blocks up to it.
-/

namespace Zakura.NonFinalized

open HeaderChain (Hash)
open FiniteMap Fallible List ChainIndex

namespace Chain

variable {History : Type} [CommitmentHasher] {settings : ChainSettings History}
  {block : ContextuallyVerifiedBlock} {blocks first rest before : List ContextuallyVerifiedBlock}
  {chain middle next full : Chain History} {low finalized high parent height : Nat}

def ExtendsAll (settings : ChainSettings History) :
    Nat → List ContextuallyVerifiedBlock → Chain History → Prop
  | _, [], _ => True
  | parent, block :: rest, chain => Extends settings parent block chain ∧
      ∀ next, chain.push settings block = .ok next → ExtendsAll settings (parent + 1) rest next

def updatesOf (settings : ChainSettings History) (blocks : List ContextuallyVerifiedBlock) :
    List ChainUpdate :=
  blocks.flatMap (·.updates settings)

def movementsOf (settings : ChainSettings History) (blocks : List ContextuallyVerifiedBlock) :
    List (Address × Int) :=
  blocks.flatMap (·.movements settings)

/-- The second blocks of a chain can be taken back from its tip: at each block, what the chain moved
for an address, less any first movements of the block, is a valid amount. -/
def ReversibleAfter (settings : ChainSettings History) (before : List ContextuallyVerifiedBlock) :
    List ContextuallyVerifiedBlock → Prop
  | [] => True
  | block :: rest =>
    (∀ address movements, movements <+: block.movements settings →
      Constraint.negativeAllowed.Holds (moved address (movementsOf settings (before ++ [block])) -
        moved address movements)) ∧
    ReversibleAfter settings (before ++ [block]) rest

theorem pushAll_cons : pushAll settings (block :: rest) chain = .ok full ↔
    ∃ next, chain.push settings block = .ok next ∧ next.pushAll settings rest = .ok full := by
  rw [pushAll, foldlM_cons, bind_eq_ok]
  rfl

theorem pushAll_nil : pushAll settings [] chain = .ok full ↔ chain = full := by
  rw [pushAll, foldlM_nil, pure_eq_ok]

theorem pushAll_append : pushAll settings (first ++ rest) chain = .ok full ↔
    ∃ middle, chain.pushAll settings first = .ok middle ∧
      middle.pushAll settings rest = .ok full := by
  rw [pushAll, foldlM_append, bind_eq_ok]
  rfl

theorem ExtendsAll.append (extension : ExtendsAll settings parent (first ++ rest) chain)
    (pushed : chain.pushAll settings first = .ok middle) : ExtendsAll settings parent first chain ∧
      ExtendsAll settings (parent + first.length) rest middle := by
  induction first generalizing parent chain with
  | nil =>
    obtain rfl := pushAll_nil.mp pushed
    exact ⟨trivial, extension⟩
  | cons block others ih =>
    obtain ⟨next, step, pushed⟩ := pushAll_cons.mp pushed
    have tail := ih (extension.2 next step) pushed
    refine ⟨⟨extension.1, ?_⟩, ?_⟩
    · intro other again
      rw [step, Except.ok.injEq] at again
      exact again ▸ tail.1
    · rw [length_cons, ← Nat.add_assoc, Nat.add_right_comm]
      exact tail.2

omit [CommitmentHasher] in
theorem reversibleAfter_append : ReversibleAfter settings before (first ++ rest) ↔
      ReversibleAfter settings before first ∧ ReversibleAfter settings (before ++ first) rest := by
  induction first generalizing before with
  | nil => simp [ReversibleAfter]
  | cons block others ih =>
    rw [cons_append, ReversibleAfter, ReversibleAfter, ih, and_assoc, append_assoc,
      singleton_append]

theorem pushAll_run (valid : chain.index.WellFormed)
    (pushed : chain.pushAll settings blocks = .ok full) :
    Journal.Run (journal settings).Made (updatesOf settings blocks) chain.index full.index := by
  induction blocks generalizing chain with
  | nil =>
    obtain rfl := pushAll_nil.mp pushed
    rfl
  | cons block others ih =>
    obtain ⟨next, step, pushed⟩ := pushAll_cons.mp pushed
    have updated := (push_eq_ok.mp step).index
    rw [updatesOf, flatMap_cons]
    exact Journal.run_append.mpr ⟨next.index, updateWithBlock_run valid updated,
      ih (updateWithBlock_wellFormed valid updated) pushed⟩

omit [CommitmentHasher] in
theorem movementsOf_append : movementsOf settings (first ++ rest) =
      movementsOf settings first ++ movementsOf settings rest :=
  flatMap_append

omit [CommitmentHasher] in
theorem movementsOf_updatesOf :
    ChainIndex.movementsOf settings (updatesOf settings blocks) = movementsOf settings blocks := by
  rw [ChainIndex.movementsOf, updatesOf, filterMap_flatMap]
  rfl

theorem pushAll_balance (valid : chain.index.WellFormed)
    (pushed : chain.pushAll settings blocks = .ok full) (address : Address) :
    full.index.balance address =
      chain.index.balance address + moved address (movementsOf settings blocks) := by
  rw [ChainIndex.run_balance (pushAll_run valid pushed), movementsOf_updatesOf]

theorem pushAll_grown (grown : Grown settings low finalized high chain)
    (extension : ExtendsAll settings high blocks chain)
    (pushed : chain.pushAll settings blocks = .ok full) :
    Grown settings low finalized (high + blocks.length) full := by
  induction blocks generalizing high chain with
  | nil =>
    obtain rfl := pushAll_nil.mp pushed
    exact grown
  | cons block others ih =>
    obtain ⟨next, step, pushed⟩ := pushAll_cons.mp pushed
    have stepGrown := (push_eq_ok.mp step).grown grown extension.1
    have result := ih stepGrown (extension.2 next step) pushed
    rwa [length_cons, Nat.add_comm others.length, ← Nat.add_assoc]

theorem pushAll_blocks (extension : ExtendsAll settings high blocks chain)
    (pushed : chain.pushAll settings blocks = .ok full) (below : height ≤ high) :
    full.blocks.lookup height = chain.blocks.lookup height := by
  induction blocks generalizing high chain with
  | nil =>
    obtain rfl := pushAll_nil.mp pushed
    rfl
  | cons block others ih =>
    obtain ⟨next, step, pushed⟩ := pushAll_cons.mp pushed
    have atTop := extension.1.height
    rw [ih (extension.2 next step) pushed (by omega), (push_eq_ok.mp step).blocks,
      lookup_insert_ite, if_neg (by omega)]

variable {sprout : SproutIndex} {hash tipHash : Hash} {fuel : Nat}

theorem Pushed.replaceSprout (pushed : Pushed settings block chain next)
    (same : sprout.index = chain.sprout.index) (keyed : sprout.Keyed) : ∃ replaced : SproutIndex,
      Pushed settings block { chain with sprout := sprout } { next with sprout := replaced } ∧
        replaced.index = next.sprout.index ∧ replaced.Keyed := by
  obtain ⟨current, tree, tip, updated, added⟩ := pushed.sprout
  obtain ⟨addedIndex, _⟩ := SproutIndex.addTreeAndAnchor_eq_ok.mp added
  obtain ⟨replaced, isReplaced⟩ : ∃ replaced : SproutIndex, replaced = ⟨next.sprout.index,
    sprout.treesByAnchor.insert (tree.root .sprout) tree⟩ := ⟨_, rfl⟩
  have replacedIndex : replaced.index = next.sprout.index := by rw [isReplaced]
  have replacedAdded : sprout.addTreeAndAnchor block.height tree = .ok replaced := by
    refine SproutIndex.addTreeAndAnchor_eq_ok.mpr ⟨?_, by rw [isReplaced]⟩
    rw [same, replacedIndex]
    exact addedIndex
  obtain ⟨parent, history, sapling, orchard, ironwood, facts⟩ := pushed.history
  refine ⟨replaced, ?_, replacedIndex, keyed.add replacedAdded⟩
  exact { pushed with
    sprout := ⟨current, tree, same ▸ tip, updated, replacedAdded⟩
    history := ⟨parent, history, sapling, orchard, ironwood, { facts with }⟩ }

theorem pushAll_replaceSprout (pushed : chain.pushAll settings blocks = .ok full)
    (same : sprout.index = chain.sprout.index) (keyed : sprout.Keyed) : ∃ replaced : SproutIndex,
      pushAll settings blocks { chain with sprout := sprout } =
        .ok { full with sprout := replaced } ∧
        replaced.index = full.sprout.index ∧ replaced.Keyed := by
  induction blocks generalizing chain sprout with
  | nil =>
    obtain rfl := pushAll_nil.mp pushed
    exact ⟨sprout, rfl, same, keyed⟩
  | cons block others ih =>
    obtain ⟨_, step, pushed⟩ := pushAll_cons.mp pushed
    obtain ⟨_, stepPushed, middleSame, middleKeyed⟩ :=
      (push_eq_ok.mp step).replaceSprout same keyed
    obtain ⟨replaced, ran, facts⟩ := ih pushed middleSame middleKeyed
    exact ⟨replaced, pushAll_cons.mpr ⟨_, push_eq_ok.mpr stepPushed, ran⟩, facts⟩

theorem Shaped.tipBlock (shaped : Shaped low finalized high chain)
    (nonempty : finalized < high) : chain.tipBlock = chain.blocks.lookup high := by
  have tip := shaped.lastKey nonempty
  unfold maxBlockHeight at tip
  rw [Chain.tipBlock, lastValue, tip]
  rfl

omit [CommitmentHasher] in
theorem forkLoop_stop (tip : chain.tipHash = some hash) :
    forkLoop settings hash fuel chain = .ok chain := by
  rw [forkLoop.eq_def]
  dsimp only
  rw [tip]
  dsimp only
  rw [if_pos rfl]

omit [CommitmentHasher] in
theorem forkLoop_pop (tip : chain.tipHash = some tipHash) (different : tipHash ≠ hash)
    (popped : chain.popTip settings = .ok next) :
    forkLoop settings hash (fuel + 1) chain = forkLoop settings hash fuel next := by
  rw [forkLoop.eq_def]
  dsimp only
  rw [tip]
  dsimp only
  rw [if_neg different, popped]
  rfl

theorem pushAll_last_block (grown : Grown settings low finalized high chain)
    (extension : ExtendsAll settings high (first ++ [block]) chain)
    (pushed : chain.pushAll settings (first ++ [block]) = .ok full) :
    ∃ middle, chain.pushAll settings first = .ok middle ∧ Pushed settings block middle full ∧
      ExtendsAll settings high first chain ∧ Extends settings (high + first.length) block middle ∧
      Grown settings low finalized (high + first.length) middle ∧
      full.blocks.lookup (high + first.length + 1) = some block := by
  obtain ⟨middle, pushedFirst, lastPushed⟩ := pushAll_append.mp pushed
  obtain ⟨_, step, final⟩ := pushAll_cons.mp lastPushed
  obtain rfl := (pushAll_nil.mp final).symm
  obtain ⟨extendsFirst, extendsLast⟩ := extension.append pushedFirst
  have stepPushed := push_eq_ok.mp step
  refine ⟨middle, pushedFirst, stepPushed, extendsFirst, extendsLast.1,
    pushAll_grown grown extendsFirst pushedFirst, ?_⟩
  rw [stepPushed.blocks, extendsLast.1.height, Finmap.lookup_insert]

omit [CommitmentHasher] in
theorem forkLoop_fail {error : ChainError} (tip : chain.tipHash = some tipHash)
    (different : tipHash ≠ hash) (failed : chain.popTip settings = .error error) :
    forkLoop settings hash (fuel + 1) chain = .error error := by
  rw [forkLoop.eq_def]
  dsimp only
  rw [tip]
  dsimp only
  rw [if_neg different, failed]
  rfl

theorem forkLoop_pushAll (grown : Grown settings low finalized high chain)
    (balance : ∀ address, chain.index.balance address = moved address (movementsOf settings before))
    (nonempty : finalized < high) (extension : ExtendsAll settings high blocks chain)
    (pushed : chain.pushAll settings blocks = .ok full)
    (atTip : chain.blocks.lookup high = some block) (same : sprout.index = full.sprout.index)
    (keyed : sprout.Keyed) (enough : blocks.length ≤ fuel) :
    (ReversibleAfter settings before blocks → ∃ restored : SproutIndex,
        forkLoop settings block.hash fuel { full with sprout := sprout } =
          .ok { chain with sprout := restored } ∧
        restored.index = chain.sprout.index ∧ restored.Keyed) ∧
    ((∃ forked, forkLoop settings block.hash fuel { full with sprout := sprout } = .ok forked) →
      ReversibleAfter settings before blocks) := by
  -- The last pushed block is the first to be popped.
  induction blocks using reverseRecOn generalizing full sprout fuel with
  | nil =>
    obtain rfl := pushAll_nil.mp pushed
    refine ⟨fun _ => ⟨sprout, ?_, same, keyed⟩, fun _ => trivial⟩
    have tip : Chain.tipHash { chain with sprout := sprout } = some block.hash := by
      change chain.tipBlock.map (·.hash) = some block.hash
      rw [grown.tipBlock nonempty, atTip]
      rfl
    exact forkLoop_stop tip
  | append_singleton others last ih =>
    obtain ⟨_, pushedOthers, stepPushed, extendsOthers, extendsLast, middleGrown, topBlock⟩ :=
      pushAll_last_block grown extension pushed
    have fullGrown := stepPushed.grown middleGrown extendsLast
    rw [length_append, length_singleton] at enough
    obtain ⟨remaining, rfl⟩ : ∃ remaining, fuel = remaining + 1 := ⟨fuel - 1, by omega⟩
    have different : last.hash ≠ block.hash := by
      have kept := pushAll_blocks extension pushed (le_refl high)
      rw [atTip] at kept
      have forkFiled := (fullGrown.filed block.hash high).mpr ⟨block, kept, rfl⟩
      have topFiled := (fullGrown.filed last.hash _).mpr ⟨last, topBlock, rfl⟩
      intro sameHash
      rw [sameHash, forkFiled, Option.some.injEq] at topFiled
      omega
    have tip : Chain.tipHash { full with sprout := sprout } = some last.hash := by
      change full.tipBlock.map (·.hash) = some last.hash
      rw [fullGrown.tipBlock (by omega), topBlock]
      rfl
    have lastReversible : ReversibleAfter settings (before ++ others) [last] ↔
        ChainIndex.Reversible settings last full.index := by
      have total (address : Address) : full.index.balance address =
          moved address (movementsOf settings (before ++ others ++ [last])) := by
        rw [pushAll_balance grown.index pushed, balance, ← moved_append, ← movementsOf_append,
          append_assoc]
      simp [ReversibleAfter, ChainIndex.Reversible, total]
    rw [reversibleAfter_append, lastReversible]
    constructor
    · rintro ⟨reversibleOthers, reversibleLast⟩
      obtain ⟨popped, popTip, poppedSame, poppedKeyed⟩ := stepPushed.popTip middleGrown (by omega)
        extendsLast reversibleLast same keyed
      obtain ⟨restored, ran, facts⟩ := (ih extendsOthers pushedOthers poppedSame poppedKeyed
        (show others.length ≤ remaining by omega)).1 reversibleOthers
      exact ⟨restored, by rw [forkLoop_pop tip different popTip, ran], facts⟩
    rintro ⟨forked, ran⟩
    cases popTip : Chain.popTip settings { full with sprout := sprout } with
    | error error =>
      simp [forkLoop_fail tip different popTip] at ran
    | ok popped =>
      obtain ⟨_, reverted⟩ := revertBlock_of_popTip popTip (fullGrown.lastKey (by omega))
        topBlock
      have reversibleLast :=
        ((revertBlock_eq_ok fullGrown.balances).mp reverted).2
      obtain ⟨restored, isPopped, poppedSame, poppedKeyed⟩ := stepPushed.popTip middleGrown
        (by omega) extendsLast reversibleLast same keyed
      rw [forkLoop_pop tip different isPopped] at ran
      exact ⟨(ih extendsOthers pushedOthers poppedSame poppedKeyed
        (show others.length ≤ remaining by omega)).2 ⟨forked, ran⟩, reversibleLast⟩

theorem Shaped.card_blocks (shaped : Shaped low finalized high chain) :
    chain.blocks.keys.card = high - finalized := by
  have range : chain.blocks.keys = Finset.Ioc finalized high := by
    ext height
    rw [mem_keys_iff, ← Option.isSome_iff_exists, shaped.within height, Finset.mem_Ioc]
  rw [range, Nat.card_Ioc]

theorem pushAll_last (extension : ExtendsAll settings parent blocks chain)
    (pushed : chain.pushAll settings blocks = .ok full) (nonempty : blocks ≠ []) :
    full.blocks.lookup (parent + blocks.length) = some (blocks.getLast nonempty) := by
  have split := dropLast_append_getLast nonempty
  rw [← split] at extension pushed
  obtain ⟨_, pushedInit, lastPushed⟩ := pushAll_append.mp pushed
  obtain ⟨_, step, final⟩ := pushAll_cons.mp lastPushed
  obtain rfl := pushAll_nil.mp final
  have top := (extension.append pushedInit).2.1.height
  have long := length_pos_iff.mpr nonempty
  rw [length_dropLast] at top
  rw [(push_eq_ok.mp step).blocks, lookup_insert_ite, if_pos (by omega)]

/-- For every way to split the blocks of a chain: the fork at the last block of the first part
exists, has the internal state of the chain of the first part, and grows to the internal state of
the whole chain when the second part is pushed onto it, exactly when the second part can be taken
back. -/
theorem fork_equals_rebuild_iff {tip : FinalizedTip History} {start : Chain History}
    (started : new tip = .ok start)
    (unseeded : ∀ seed, settings.seedHeight = some seed → tip.height < seed →
      tip.chainValuePools.nsmValueBalance.zatoshis = 0)
    (nonempty : first ≠ [])
    (extension : ExtendsAll settings tip.height (first ++ rest) start)
    (pushed : start.pushAll settings (first ++ rest) = .ok full) :
    (∃ rebuilt forked again, start.pushAll settings first = .ok rebuilt ∧
      full.fork settings (first.getLast nonempty).hash = .ok (some forked) ∧
      SameInternalState forked rebuilt ∧
      forked.pushAll settings rest = .ok again ∧ SameInternalState again full) ↔
    ReversibleAfter settings first rest := by
  obtain ⟨rebuilt, rebuiltPushed, restPushed⟩ := pushAll_append.mp pushed
  obtain ⟨extendsFirst, extendsRest⟩ := extension.append rebuiltPushed
  have startGrown := new_grown started unseeded
  have rebuiltGrown := pushAll_grown startGrown extendsFirst rebuiltPushed
  have fullGrown := pushAll_grown rebuiltGrown extendsRest restPushed
  have long : 0 < first.length := length_pos_iff.mpr nonempty
  have atTip := pushAll_last extendsFirst rebuiltPushed nonempty
  have balance (address : Address) : rebuilt.index.balance address =
      moved address (movementsOf settings first) := by
    rw [pushAll_balance startGrown.index rebuiltPushed, (started_of_new started).index,
      empty_balance, zero_add]
  have enough : rest.length ≤ full.blocks.keys.card := by
    rw [fullGrown.card_blocks]
    omega
  obtain ⟨forkOf, ofFork⟩ := forkLoop_pushAll rebuiltGrown balance (by omega) extendsRest restPushed
    atTip rfl fullGrown.keyed enough
  have present : (full.index.heightByHash.lookup (first.getLast nonempty).hash).isNone = false := by
    have kept := pushAll_blocks extendsRest restPushed (le_refl _)
    rw [atTip] at kept
    rw [(fullGrown.filed _ _).mpr ⟨_, kept, rfl⟩]
    rfl
  have forkRuns : full.fork settings (first.getLast nonempty).hash =
      (forkLoop settings (first.getLast nonempty).hash full.blocks.keys.card full).map some := by
    rw [fork, present, if_neg (by simp)]
    cases forkLoop settings (first.getLast nonempty).hash full.blocks.keys.card full <;> rfl
  constructor
  · rintro ⟨_, forked, _, _, isForked, _⟩
    rw [forkRuns] at isForked
    refine ofFork ⟨forked, ?_⟩
    cases ran : forkLoop settings (first.getLast nonempty).hash full.blocks.keys.card full with
    | error error => simp [ran, Except.map] at isForked
    | ok value =>
      simp only [ran, Except.map, Except.ok.injEq, Option.some.injEq] at isForked
      rw [isForked]
  intro reversible
  obtain ⟨restored, ran, same, keyed⟩ := forkOf reversible
  obtain ⟨again, ranAgain, againSame, againKeyed⟩ := pushAll_replaceSprout restPushed same keyed
  refine ⟨rebuilt, { rebuilt with sprout := restored }, { full with sprout := again },
    rebuiltPushed, ?_, ?_, ranAgain, ?_⟩
  · rw [forkRuns, ran]
    rfl
  · exact sameInternalState_of_keyed rfl same keyed rebuiltGrown.keyed
  · exact sameInternalState_of_keyed rfl againSame againKeyed fullGrown.keyed

section

omit [CommitmentHasher]

/-- The indexes of the chains that pushing blocks and popping them from either end can make, with
the blocks of the chain. -/
inductive Indexes (settings : ChainSettings History) :
    List ContextuallyVerifiedBlock → ChainIndex → Prop
  | new : Indexes settings [] .empty
  | push {blocks : List ContextuallyVerifiedBlock} {block : ContextuallyVerifiedBlock}
      {before after : ChainIndex} (earlier : Indexes settings blocks before)
      (pushed : before.updateWithBlock settings block = .ok after) :
      Indexes settings (blocks ++ [block]) after
  | pop {first rest : List ContextuallyVerifiedBlock} {block : ContextuallyVerifiedBlock}
      {before after : ChainIndex} (atEnd : first = [] ∨ rest = [])
      (earlier : Indexes settings (first ++ block :: rest) before)
      (popped : before.revertBlock settings block = .ok after) :
      Indexes settings (first ++ rest) after

variable {index : ChainIndex}

theorem undone_of_made
    (made : Journal.Run (journal settings).Made (updatesOf settings (first ++ block :: rest)) .empty
      index) :
    ∃ rebuilt, Journal.Run (journal settings).Made (updatesOf settings (first ++ rest)) .empty
        rebuilt ∧ Journal.Run (journal settings).Undone (block.reverts settings) index rebuilt := by
  have permuted : (updatesOf settings (first ++ block :: rest)).Perm
      (block.updates settings ++ updatesOf settings (first ++ rest)) :=
    perm_middle.flatMap_right _
  exact (journal_lawful settings).undo_first (block.reverts_perm settings) empty_wellFormed
    ((journal_lawful settings).run_perm permuted made)

theorem Indexes.made (indexes : Indexes settings blocks index) :
    Journal.Run (journal settings).Made (updatesOf settings blocks) .empty index ∧
      index.BalancesHold := by
  induction indexes with
  | new => exact ⟨rfl, empty_balancesHold⟩
  | push _ pushed ih =>
    have valid := (journal_lawful settings).run_valid empty_wellFormed ih.1
    refine ⟨?_, updateWithBlock_balancesHold valid ih.2 pushed⟩
    rw [updatesOf, flatMap_append, flatMap_singleton]
    exact Journal.run_append.mpr ⟨_, ih.1, updateWithBlock_run valid pushed⟩
  | pop _ _ popped ih =>
    obtain ⟨made, balances⟩ := ih
    obtain ⟨_, again, undone⟩ := undone_of_made made
    obtain ⟨_, reversible⟩ := (revertBlock_eq_ok balances).mp popped
    obtain rfl := Except.ok.inj (popped.symm.trans ((revertBlock_eq_ok balances).mpr
      ⟨undone, reversible⟩))
    refine ⟨again, fun address => ?_⟩
    rw [run_undone_balance undone, ContextuallyVerifiedBlock.reverts_movements]
    exact reversible address _ (prefix_refl _)

/-- The balance of an address is what the blocks of the chain move for it. A block that is refused
for no other reason is pushed, and a block of the chain is popped, exactly when no balance leaves
the range of amounts on the way. -/
theorem Indexes.balances_abort_iff (indexes : Indexes settings blocks index) :
    (∀ address, index.balance address = moved address (movementsOf settings blocks)) ∧
    (∀ block, (∃ after, Journal.Run (journal settings).Made (block.updates settings) index after) →
      ((∃ after, index.updateWithBlock settings block = .ok after) ↔
        ∀ address movements, movements <+: block.movements settings →
          Constraint.negativeAllowed.Holds
            (moved address (movementsOf settings blocks) + moved address movements))) ∧
    ∀ block ∈ blocks, (∃ after, index.revertBlock settings block = .ok after) ↔
      ∀ address movements, movements <+: block.movements settings →
        Constraint.negativeAllowed.Holds
          (moved address (movementsOf settings blocks) - moved address movements) := by
  obtain ⟨made, balances⟩ := indexes.made
  have balance (address : Address) :
      index.balance address = moved address (movementsOf settings blocks) := by
    rw [run_balance made, empty_balance, zero_add, movementsOf_updatesOf]
  simp only [← balance]
  refine ⟨fun _ => trivial, fun block valid => ?_, fun block member => ?_⟩
  · have wellFormed := (journal_lawful settings).run_valid empty_wellFormed made
    simp only [updateWithBlock, updateAll_eq_ok wellFormed balances, exists_and_right]
    exact and_iff_right valid
  obtain ⟨_, _, rfl⟩ := append_of_mem member
  obtain ⟨rebuilt, _, undone⟩ := undone_of_made made
  simp only [revertBlock_eq_ok balances, exists_and_right]
  exact and_iff_right ⟨rebuilt, undone⟩

end

end Chain

namespace Sample

@[reducible] def hasher : CommitmentHasher where
  root _ leaves := ⟨BitVec.ofNat 256 leaves.length⟩
  subtreeRoot _ leaves := ⟨BitVec.ofNat 256 leaves.length⟩

def settings : ChainSettings Unit where
  nu7ActivationHeight := none
  nsmSeed := .derived
  scheduledIssuance _ := .ok 0
  outputAddress output := output.lockScript.head?.map fun byte =>
    .payToPublicKeyHash .mainnet (byte.zeroExtend 160)
  skipsTransparentAddressIndex := false
  indexer := false
  serializedSize block := block.transactions.length
  pushHistory _ _ _ _ _ := .ok ()

def header (parent : Nat) : HeaderChain.Header where
  version := 4
  previousBlockHash := ⟨BitVec.ofNat 256 parent⟩
  merkleRoot := 0
  commitmentBytes := 0
  time := 0
  difficultyThreshold := ⟨0x1f07ffff#32⟩
  nonce := 0
  solution := .regtest 0

def transactionHash (number : Nat) : TransactionHash := ⟨BitVec.ofNat 256 number⟩

def outpoint (number : Nat) : OutPoint := ⟨transactionHash number, 0⟩

def output (script : BitVec 8) : Output := ⟨⟨2000000000000000, by decide⟩, [script]⟩

def unspent (height index : Nat) (script : BitVec 8) : OrderedUtxo :=
  ⟨⟨output script, height, false⟩, index⟩

def payment (spent : OutPoint) (script : BitVec 8) : Transaction :=
  .v5 [.prevOut spent] [output script] none none

def block (height : Nat) (payments : List (TransactionHash × Transaction))
    (newOutputs spentOutputs : FiniteMap OutPoint OrderedUtxo) : ContextuallyVerifiedBlock where
  block := ⟨header (height - 1), .v5 [.coinbase height] [] none none :: payments.map Prod.snd⟩
  hash := ⟨BitVec.ofNat 256 height⟩
  height := height
  newOutputs := newOutputs
  spentOutputs := spentOutputs
  transactionHashes := transactionHash (100 + height) :: payments.map Prod.fst
  chainValuePoolChange := ⟨fun _ => .zero, .zero⟩
  receiptOrder := none
  heightAgrees := rfl

def tip : FinalizedTip Unit where
  height := 0
  sprout := ⟨[]⟩
  sapling := ⟨[]⟩
  orchard := ⟨[]⟩
  ironwood := ⟨[]⟩
  history := ()
  chainValuePools := ⟨fun _ => .zero, .zero⟩

def received : ContextuallyVerifiedBlock :=
  block 1 [(transactionHash 1, payment (outpoint 0) 1)]
    (.singleton (outpoint 1) (unspent 1 1 1)) (.singleton (outpoint 0) (unspent 0 0 0))

def thereAndBack : ContextuallyVerifiedBlock :=
  block 2 [(transactionHash 2, payment (outpoint 1) 2), (transactionHash 3, payment (outpoint 2) 1)]
    (Finmap.insert (outpoint 3) (unspent 2 2 1) (.singleton (outpoint 2) (unspent 2 1 2)))
    (Finmap.insert (outpoint 2) (unspent 2 1 2) (.singleton (outpoint 1) (unspent 1 1 1)))

theorem block_extends {parent : Nat} {payments : List (TransactionHash × Transaction)}
    {newOutputs spentOutputs : FiniteMap OutPoint OrderedUtxo} {chain : Chain Unit}
    {settings : ChainSettings Unit} [CommitmentHasher]
    (still : ∀ pool, (block (parent + 1) payments newOutputs spentOutputs).block.noteCommitments
      pool = []) :
    Chain.Extends settings parent (block (parent + 1) payments newOutputs spentOutputs) chain := by
  have moves (pool : ShieldedPool) (index : TreeIndex) :
      RootsMove pool (block (parent + 1) payments newOutputs spentOutputs).block index := by
    intro current tree completed _ appended
    rw [still pool] at appended
    simp [NoteCommitmentTree.appendBatch] at appended
  exact ⟨rfl, fun _ _ _ => rfl, moves _ _, moves _ _, moves _ _⟩

local instance : CommitmentHasher := hasher

theorem payments_extend {start : Chain Unit} :
    Chain.ExtendsAll settings 0 [received, thereAndBack] start :=
  ⟨block_extends (by intro pool; cases pool <;> rfl), fun _ _ =>
    ⟨block_extends (by intro pool; cases pool <;> rfl), fun _ _ => trivial⟩⟩

/-- The chain of both blocks, where coins of more than half of all the money went to an address
and back in one block. Taking back the first payment before the second leaves the first address
with twice its coins. -/
theorem fork_panics_on_returned_coins : ∃ start full,
    Chain.new tip = .ok start ∧
    Chain.ExtendsAll settings tip.height [received, thereAndBack] start ∧
    start.pushAll settings [received, thereAndBack] = .ok full ∧
    full.fork settings received.hash =
      .error (.panic "reversing previous balance changes is always valid") :=
  ⟨_, _, eq_value (by decide +kernel), payments_extend, eq_value (by decide +kernel),
    failure_eq_some.mp (by decide +kernel)⟩

def passedOn : ContextuallyVerifiedBlock :=
  block 2 [(transactionHash 2, payment (outpoint 1) 2)]
    (.singleton (outpoint 2) (unspent 2 1 2)) (.singleton (outpoint 1) (unspent 1 1 1))

def start : Chain Unit := value (Chain.new tip) (by decide +kernel)

def afterBoth : Chain Unit :=
  value (start.pushAll settings [received, passedOn]) (by decide +kernel)

theorem transfers_extend : Chain.ExtendsAll settings 0 [received, passedOn] start :=
  ⟨block_extends (by intro pool; cases pool <;> rfl), fun _ _ =>
    ⟨block_extends (by intro pool; cases pool <;> rfl), fun _ _ => trivial⟩⟩

/-- Only the addresses that occur have to be checked. -/
theorem holds_of_occurring {moves : List (Address × Int)} (given : List (Address × Int))
    (range : Int → Int → Prop) (still : range 0 0) (occurring : ∀ address ∈ (given ++ moves).map Prod.fst,
      ∀ movements ∈ moves.inits, range (moved address given) (moved address movements)) :
    ∀ address movements, movements <+: moves →
      range (moved address given) (moved address movements) := by
  intro address movements early
  by_cases occurs : address ∈ (given ++ moves).map Prod.fst
  · exact occurring address occurs movements ((mem_inits _ _).mpr early)
  · have none {part : List (Address × Int)} (within : part ⊆ given ++ moves) :
        moved address part = 0 := by
      unfold moved
      rw [filter_eq_nil_iff.mpr fun movement listed same => occurs (mem_map.mpr
        ⟨movement, within listed, of_decide_eq_true same⟩)]
      rfl
    rw [none fun _ => mem_append_left _, none fun _ listed => mem_append_right _ (early.subset listed)]
    exact still

theorem fork_equals_rebuild_of_payments :
    Chain.ReversibleAfter settings [received] [passedOn] ∧
    ∃ rebuilt forked again, start.pushAll settings [received] = .ok rebuilt ∧
      afterBoth.fork settings received.hash = .ok (some forked) ∧
      Chain.SameInternalState forked rebuilt ∧
      forked.pushAll settings [passedOn] = .ok again ∧
      Chain.SameInternalState again afterBoth := by
  have reversible : Chain.ReversibleAfter settings [received] [passedOn] :=
    ⟨holds_of_occurring _ (fun total part => Constraint.negativeAllowed.Holds (total - part))
      (by decide) (by decide +kernel), trivial⟩
  exact ⟨reversible, (Chain.fork_equals_rebuild_iff (eq_value _) (fun _ isSeed => by cases isSeed)
    (cons_ne_nil received []) transfers_extend (eq_value _)).mpr reversible⟩

def toItselfAgain : ContextuallyVerifiedBlock :=
  block 2 [(transactionHash 2, payment (outpoint 1) 1)]
    (.singleton (outpoint 2) (unspent 2 1 1)) (.singleton (outpoint 1) (unspent 1 1 1))

/-- An address that received coins of more than half of all the money pays them to itself: its
output is added before its spend is taken away. -/
theorem push_panics_on_own_payment : ∃ start one,
    Chain.new tip = .ok start ∧ start.pushAll settings [received] = .ok one ∧
    one.push settings toItselfAgain =
      .error (.panic "total UTXO value has already been checked") :=
  ⟨_, _, eq_value (by decide +kernel), eq_value (by decide +kernel),
    failure_eq_some.mp (by decide +kernel)⟩

def indexOfReceived : ChainIndex :=
  value (ChainIndex.empty.updateWithBlock settings received) (by decide +kernel)

/-- The next payment can be pushed, and the payment can be popped. -/
theorem balances_abort_iff_of_received :
    (∀ address, indexOfReceived.balance address =
      moved address (Chain.movementsOf settings [received])) ∧
    (∃ after, indexOfReceived.updateWithBlock settings passedOn = .ok after) ∧
    ∃ after, indexOfReceived.revertBlock settings received = .ok after := by
  have indexes : Chain.Indexes settings [received] indexOfReceived := .push .new (eq_value _)
  obtain ⟨made, balances⟩ := indexes.made
  have next : ∃ after, Journal.Run (journal settings).Made (passedOn.updates settings)
      indexOfReceived after := by
    refine ⟨_, ((updateAll_eq_ok ((journal_lawful settings).run_valid empty_wellFormed made)
      balances).mp (eq_value ?_)).1⟩
    decide +kernel
  obtain ⟨balance, pushes, pops⟩ := indexes.balances_abort_iff
  refine ⟨balance, (pushes passedOn next).mpr ?_, (pops received mem_cons_self).mpr ?_⟩
  · exact holds_of_occurring _ (fun total part => Constraint.negativeAllowed.Holds (total + part))
      (by decide) (by decide +kernel)
  · exact holds_of_occurring _ (fun total part => Constraint.negativeAllowed.Holds (total - part))
      (by decide) (by decide +kernel)

end Sample

end Zakura.NonFinalized
