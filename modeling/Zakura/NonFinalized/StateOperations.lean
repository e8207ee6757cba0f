import Zakura.NonFinalized.StateInvariant

/-!
What each operation of the non-finalized state does, and that it keeps the invariant.
-/

namespace Zakura.NonFinalized

open HeaderChain (Hash)
open FiniteMap Fallible List Option

namespace NonFinalizedState

variable {History : Type} {tree : BlockTree} {height finalizedHeight recordHeight : Nat}
  {tip hash parentHash : Hash} {state next : NonFinalizedState History}
  {found best chain side : PreferredChain History} {block sideRoot root : ContextuallyVerifiedBlock}
  {treestate : Treestate History} {parent popped : Chain History} {settings : ChainSettings History}
  {finalized : FinalizedState History} {rest : List ContextuallyVerifiedBlock}

section

variable [CommitmentHasher] {settings : ContextSettings History} {reusable : Reusable History}
  {prepared : SemanticallyVerifiedBlock}

/-- The chain a block is committed on: made of blocks of the set, it ends in the block's parent. -/
structure ParentOf (settings : ChainSettings History) (tree : BlockTree) (height : Nat)
    (tip : Hash) (state : NonFinalizedState History) (hash : Hash) (parent : Chain History) :
    Prop where
  endsIn : parent.EndsIn settings tree height tip hash
  known : ∀ block ∈ parent.listed, ∃ source ∈ state.chainSet, block ∈ source.chain.listed

omit [CommitmentHasher] in
theorem parentOf_of_parentChain {settings : ChainSettings History}
    (coherent : Coherent settings tree height tip state)
    (isParent : state.parentChain settings hash = .ok parent) :
    ParentOf settings tree height tip state hash parent := by
  obtain ⟨holds, isTip, source, member, early⟩ := parentChain_eq_ok coherent.holds isParent
  exact ⟨holds.endsIn isTip, fun block listed => ⟨source, member, early.subset listed⟩⟩

theorem parentOf_of_new {settings : ChainSettings History} {finalizedTip : FinalizedTip History}
    (isNew : Chain.new finalizedTip = .ok parent) :
    ParentOf settings tree finalizedTip.height tip state tip parent := by
  obtain ⟨ends, none⟩ : parent.EndsIn settings tree finalizedTip.height tip tip ∧
    parent.listed = [] := Chain.endsIn_of_new isNew
  refine ⟨ends, ?_⟩
  rw [none]
  simp

/-- A block is committed by pushing it onto the chain of its parent and inserting the result. -/
structure Commits (settings : ContextSettings History) (tree : BlockTree) (height : Nat)
    (tip : Hash) (state : NonFinalizedState History) (prepared : SemanticallyVerifiedBlock)
    (keep : PreferredChain History → Bool) (parent : Chain History)
    (contextual : ContextuallyVerifiedBlock) (modified : Chain History)
    (next : NonFinalizedState History) : Prop where
  parentOf : ParentOf settings.toChainSettings tree height tip state
    prepared.block.header.previousBlockHash parent
  pushes : Pushes settings state prepared parent contextual modified
  inserted : Inserted state modified keep next

theorem commits_of_commitBlock (coherent : Coherent settings.toChainSettings tree height tip state)
    (reuse : ∀ parent, state.parentChain settings.toChainSettings
      prepared.block.header.previousBlockHash = .ok parent →
        ReusableFor settings.toChainSettings parent prepared reusable) :
    (∃ error, state.commitBlock settings finalized reusable prepared = (.error error, state)) ∨
    ∃ parent contextual modified middle,
      state.parentChain settings.toChainSettings prepared.block.header.previousBlockHash =
        .ok parent ∧ state.extendChain settings finalized reusable prepared parent = .ok modified ∧
      Commits settings tree height tip state prepared
        (fun other => other.tipHash ≠ some prepared.block.header.previousBlockHash)
        parent contextual modified middle ∧ state.commitBlock settings finalized reusable prepared =
        (.ok (), middle.retainPreciousBlocks) := by
  unfold commitBlock
  dsimp only
  split
  · exact .inl ⟨_, rfl⟩
  rename_i modified made
  obtain ⟨parent, isParent, made⟩ := bind_eq_ok.mp made
  split
  · exact .inl ⟨_, rfl⟩
  rename_i middle isInserted
  have pushed : ∃ contextual, Pushes settings state prepared parent contextual modified := by
    unfold extendChain at made
    split at made
    next preparedChain isReused =>
      obtain ⟨_, accepted, finishes⟩ := reuse parent isParent preparedChain isReused
      exact pushes_of_finishPreparedChain accepted finishes made
    · exact pushes_of_validateAndCommit made
  obtain ⟨contextual, pushes⟩ := pushed
  exact .inr ⟨parent, contextual, modified, middle, isParent, made,
    ⟨parentOf_of_parentChain coherent isParent, pushes, inserted_of_insertWith isInserted⟩, rfl⟩

theorem commits_of_commitNewChain
    (isParent : prepared.block.header.previousBlockHash = finalized.tipHash) :
    (∃ error, state.commitNewChain settings finalized reusable prepared = (.error error, state)) ∨
    ∃ parent contextual modified middle, Chain.new finalized.tip = .ok parent ∧
      state.validateAndCommit settings finalized parent prepared reusable.spentUtxos =
        .ok modified ∧
      Commits settings tree finalized.tip.height finalized.tipHash state prepared (fun _ => true)
        parent contextual modified middle ∧
      state.commitNewChain settings finalized reusable prepared =
        (.ok (), middle.retainPreciousBlocks) := by
  unfold commitNewChain
  dsimp only
  split
  · exact .inl ⟨_, rfl⟩
  rename_i modified made
  obtain ⟨parent, isNew, made⟩ := bind_eq_ok.mp made
  split
  · exact .inl ⟨_, rfl⟩
  rename_i middle isInserted
  rw [mapError_eq_ok] at isNew
  obtain ⟨contextual, pushes⟩ := pushes_of_validateAndCommit made
  refine .inr ⟨parent, contextual, modified, middle, isNew, made, ⟨?_, pushes,
    inserted_of_insertWith isInserted⟩, rfl⟩
  rw [isParent]
  exact parentOf_of_new isNew

variable {keep : PreferredChain History → Bool} {modified : Chain History}
  {contextual : ContextuallyVerifiedBlock}

section

variable (coherent : Coherent settings.toChainSettings tree height tip state)
  (knows : tree.Knows prepared.hash prepared.block prepared.height)
  (commits : Commits settings tree height tip state prepared keep parent contextual modified next)
include coherent knows commits

theorem Commits.addable : Addable settings.toChainSettings tree height tip state modified ∧
      modified.listed = parent.listed ++ [contextual] ∧ modified.tipHash = some prepared.hash := by
  have pushes := commits.pushes
  have isKnown : tree.Knows contextual.hash contextual.block contextual.height := by
    rw [pushes.hash, pushes.block, pushes.height]
    exact knows
  have isParent := congrArg (fun block : Block => block.header.previousBlockHash) pushes.block
  obtain ⟨ends, same⟩ :=
    commits.parentOf.endsIn.push coherent.tipHeight isKnown isParent pushes.pushed
  obtain ⟨holds, isTip⟩ := ends.holds same
  obtain ⟨_, checked, receipt⟩ := pushes.checked
  obtain ⟨valid, copied⟩ := checkBeforeContextualUpdate_eq_ok coherent.holds checked
  refine ⟨coherent.addable holds same commits.parentOf.known ?_ ?_, same, ?_⟩
  · intro old member block isContextual copy listed sameHash
    obtain rfl := mem_singleton.mp isContextual
    rcases copied with absent | ⟨source, sourceMember, first, firstListed, firstHash, firstReceipt⟩
    · exact absurd (sameHash.symm.trans pushes.hash) (absent old member copy listed)
    · rw [receipt, ← firstReceipt]
      exact coherent.copies source sourceMember old member first firstListed copy listed
        (firstHash.trans (pushes.hash.symm.trans sameHash))
  · intro block isContextual
    rw [mem_singleton.mp isContextual, pushes.hash]
    exact valid
  · rw [isTip, pushes.hash]

theorem Commits.listed (member : found ∈ next.chainSet) (isListed : block ∈ found.chain.listed) :
    (∃ source ∈ state.chainSet, block ∈ source.chain.listed) ∨ block = contextual := by
  rcases (commits.inserted.mem member).1 with old | rfl
  · exact .inl ⟨found, old, isListed⟩
  have isModified : block ∈ modified.listed := isListed
  rw [(commits.addable coherent knows).2.1, mem_append, mem_singleton] at isModified
  rcases isModified with early | new
  · exact .inl (commits.parentOf.known block early)
  · exact .inr new

end

theorem Commits.coherent (coherent : Coherent settings.toChainSettings tree height tip state)
    (knows : tree.Knows prepared.hash prepared.block prepared.height)
    (commits : Commits settings tree height tip state prepared keep parent contextual modified next) :
    Coherent settings.toChainSettings tree height tip next.retainPreciousBlocks :=
  (coherent.inserted (commits.addable coherent knows).1 commits.inserted).retained

end

section

variable {first : List ContextuallyVerifiedBlock}

/-- A block and its descendants are cut off: chains with the block leave the set, and what is left
of one of them below the block is added. -/
structure Cuts (settings : ChainSettings History) (height : Nat)
    (state : NonFinalizedState History) (hash : Hash) (first : List ContextuallyVerifiedBlock)
    (block : ContextuallyVerifiedBlock) (rest : List ContextuallyVerifiedBlock)
    (next : NonFinalizedState History) : Prop where
  source : ∃ source ∈ state.chainSet, source.chain.listed = first ++ block :: rest
  isHash : block.hash = hash
  cut : (first = [] ∧ next = { state with
      chainSet := state.chainSet.filter fun chain => !chain.containsBlockHash hash }) ∨
    first ≠ [] ∧ ∃ below, Chain.Represents settings height first below ∧
      Inserted state below (fun chain => !chain.containsBlockHash hash) next

theorem invalidateBlock_cases (hash : Hash) (coherent : Coherent settings tree height tip state) :
    (∃ error, state.invalidateBlock settings hash = (.error error, state)) ∨
    ∃ first block rest middle, Cuts settings height state hash first block rest middle ∧
      state.invalidateBlock settings hash = (.ok hash,
        (middle.recordInvalidated block.height (block :: rest)).retainPreciousBlocks) := by
  unfold invalidateBlock
  split
  · exact .inl ⟨_, rfl⟩
  rename_i found isFound
  obtain ⟨member, _⟩ := findChain_eq_some isFound
  have holds := coherent.holds found member
  dsimp only
  split
  · exact .inl ⟨_, rfl⟩
  · exact .inl ⟨_, rfl⟩
  rename_i middle removedFirst removedRest removed
  refine .inr ?_
  split at removed
  next isRoot =>
    obtain ⟨rfl, isListed⟩ := Prod.mk.inj (pure_eq_ok.mp removed)
    have same : found.chain.listed = removedFirst :: removedRest := isListed
    have isHash := mem_unique (holds.rootHash same) isRoot
    exact ⟨[], removedFirst, removedRest, _, ⟨⟨found, member, same⟩, isHash, .inl ⟨rfl, rfl⟩⟩, rfl⟩
  rename_i notRoot
  simp only [bind_eq_ok, expect_eq_ok, pure_eq_ok] at removed
  obtain ⟨_, made, ⟨below, _⟩, rfl, added, isInserted, same⟩ := removed
  obtain ⟨rfl, rfl⟩ := Prod.mk.inj same
  obtain ⟨first, _, _, split, isHash, isRemoved, represents⟩ := holds.invalidateBlock made
  obtain ⟨rfl, rfl⟩ := cons.inj isRemoved
  have nonempty : first ≠ [] := by
    rintro rfl
    exact notRoot ((holds.rootHash split).trans (congrArg some isHash))
  exact ⟨first, removedFirst, removedRest, added, ⟨⟨found, member, split⟩, isHash,
    .inr ⟨nonempty, below, represents, inserted_of_insertWith isInserted⟩⟩, rfl⟩

variable {middle : NonFinalizedState History}

section

variable (coherent : Coherent settings tree height tip state)
  (cuts : Cuts settings height state hash first block rest middle)
include coherent cuts

theorem Cuts.addable {below : Chain History} (nonempty : first ≠ [])
    (represents : Chain.Represents settings height first below) :
    Addable settings tree height tip state below := by
  obtain ⟨source, member, split⟩ := cuts.source
  have linked := (coherent.holds source member).linked
  rw [split, linked_append] at linked
  have same : below.listed = first ++ [] := represents.listed.trans (append_nil _).symm
  refine coherent.addable (represents.holds nonempty linked.1) same ?_ ?_ ?_
  · intro listed isListed
    refine ⟨source, member, ?_⟩
    rw [split]
    exact mem_append_left _ isListed
  · intro old _ listed isListed
    cases isListed
  · intro listed isListed
    cases isListed

theorem Cuts.below : Coherent settings tree height tip middle ∧
      middle.invalidatedBlocks = state.invalidatedBlocks ∧
      ∀ chain ∈ middle.chainSet, chain.containsBlockHash hash = false := by
  rcases cuts.cut with ⟨_, rfl⟩ | ⟨nonempty, _, represents, inserted⟩
  · refine ⟨coherent.dropped filter_sublist, rfl, ?_⟩
    intro chain member
    simpa using (mem_filter.mp member).2
  refine ⟨coherent.inserted (cuts.addable coherent nonempty represents) inserted, ?_, ?_⟩
  · exact inserted.records
  · intro chain member
    simpa using (inserted.mem member).2

theorem Cuts.keeps_added (nonempty : first ≠ []) :
    ∃ found ∈ middle.chainSet, found.tipHash = some (lastHash tip first) := by
  rcases cuts.cut with ⟨empty, _⟩ | ⟨_, _, represents, inserted⟩
  · exact absurd empty nonempty
  have addable := cuts.addable coherent nonempty represents
  have holds := addable.holds
  obtain ⟨_, last, isLast⟩ := holds.exists_last
  have isTip := (holds.tip isLast).2
  have isTipOf : lastHash tip first = last.hash := by
    rw [← represents.listed, isLast, lastHash_concat]
  rw [isTipOf, ← isTip]
  refine coherent.keeps_added addable inserted fun found foundHolds sameTip => ?_
  have absent : hash ∉ first.map (·.hash) := by
    obtain ⟨source, member, split⟩ := cuts.source
    have distinct := (coherent.holds source member).represents.hashes_nodup
    rw [split, map_append, map_cons, cuts.isHash] at distinct
    exact fun listed => (disjoint_of_nodup_append distinct) listed mem_cons_self
  rw [Bool.not_eq_true', Bool.eq_false_iff]
  intro contained
  obtain ⟨copy, listed, isHash⟩ := (foundHolds.contains hash).mp contained
  refine absent ?_
  rw [← represents.listed, ← foundHolds.same_hashes holds (sameTip.trans isTip) isTip]
  exact mem_map.mpr ⟨copy, listed, isHash⟩

theorem Cuts.keeps_best (member : best ∈ state.chainSet)
    (stays : best.containsBlockHash hash = false)
    (isBest : ∀ other ∈ state.chainSet, other.containsBlockHash hash = false → other.order ≤
      best.order) : best ∈ middle.chainSet := by
  rcases cuts.cut with ⟨_, rfl⟩ | ⟨nonempty, _, represents, inserted⟩
  · exact mem_filter.mpr ⟨member, by rw [stays]; rfl⟩
  refine coherent.keeps_best (cuts.addable coherent nonempty represents) inserted member ?_ ?_
  · rw [stays]
    rfl
  · intro other isOther otherStays
    exact isBest other isOther (by simpa using otherStays)

end

section

variable (cuts : Cuts settings height state hash first block rest middle)
include cuts

theorem Cuts.listed {listed : ContextuallyVerifiedBlock} (member : found ∈ middle.chainSet)
    (isListed : listed ∈ found.chain.listed) :
    ∃ source ∈ state.chainSet, listed ∈ source.chain.listed := by
  rcases cuts.cut with ⟨_, rfl⟩ | ⟨_, below, represents, inserted⟩
  · exact ⟨found, mem_of_mem_filter member, isListed⟩
  rcases (inserted.mem member).1 with old | rfl
  · exact ⟨found, old, isListed⟩
  obtain ⟨source, isSource, split⟩ := cuts.source
  have isBelow : listed ∈ below.listed := isListed
  rw [represents.listed] at isBelow
  refine ⟨source, isSource, ?_⟩
  rw [split]
  exact mem_append_left _ isBelow

theorem Cuts.gone (coherent : Coherent settings tree height tip state)
    (member : chain ∈ middle.chainSet) {listed removed : ContextuallyVerifiedBlock}
    (isListed : listed ∈ chain.chain.listed) (isRemoved : removed ∈ block :: rest) :
    listed.hash ≠ removed.hash := by
  intro same
  obtain ⟨belowCoherent, _, without⟩ := cuts.below coherent
  obtain ⟨source, sourceMember, split⟩ := cuts.source
  have linked := (coherent.holds source sourceMember).linked
  rw [split] at linked
  have holds := belowCoherent.holds chain member
  obtain ⟨found, isFound, isHash⟩ := linked.has_ancestor holds.linked isRemoved isListed same
  have contained : chain.containsBlockHash hash = true :=
    (holds.contains hash).mpr ⟨found, isFound, isHash.trans cuts.isHash⟩
  rw [without chain member] at contained
  cases contained

theorem Cuts.coherent (coherent : Coherent settings tree height tip state) :
    Coherent settings tree height tip
      (middle.recordInvalidated block.height (block :: rest)).retainPreciousBlocks := by
  obtain ⟨belowCoherent, sameRecords, _⟩ := cuts.below coherent
  obtain ⟨source, member, split⟩ := cuts.source
  have linked := (coherent.holds source member).linked
  rw [split, linked_append] at linked
  refine (belowCoherent.recorded ?_ ?_ ?_).retained
  · rw [linked.2.2.1]
    exact linked.2
  · intro removed isRemoved
    unfold isInvalidated
    rw [sameRecords]
    refine coherent.apart source member removed ?_
    rw [split]
    exact mem_append_right _ isRemoved
  · intro chain chainMember listed isListed removed isRemoved
    exact cuts.gone coherent chainMember isListed isRemoved

end

end

section

variable [CommitmentHasher] {chain : Chain History}

structure Restores (settings : ChainSettings History) (tree : BlockTree)
    (finalized : FinalizedState History) (state : NonFinalizedState History) (hash : Hash)
    (recordHeight : Nat) (root : ContextuallyVerifiedBlock)
    (rest : List ContextuallyVerifiedBlock) (parent chain : Chain History)
    (next : NonFinalizedState History) : Prop where
  recorded : (recordHeight, root :: rest) ∈ state.invalidatedBlocks
  isHash : root.hash = hash
  parentOf : ParentOf settings tree finalized.tip.height finalized.tipHash state
    root.block.header.previousBlockHash parent
  pushed : parent.pushAll settings (root :: rest) = .ok chain
  inserted : Inserted (state.forgetRecord recordHeight finalized.tip.height) chain
    (fun other => other.tipHash ≠ some root.block.header.previousBlockHash) next

theorem parentOf_of_reconsideredParent
    (coherent : Coherent settings tree finalized.tip.height finalized.tipHash state)
    (isParent : state.reconsideredParent settings finalized hash parentHash = .ok parent) :
    ParentOf settings tree finalized.tip.height finalized.tipHash state parentHash parent := by
  unfold reconsideredParent at isParent
  split at isParent
  next onFinalized =>
    rw [onFinalized]
    exact parentOf_of_new (mapError_eq_ok.mp isParent)
  split at isParent
  · cases isParent
  · cases isParent
  next found isFound =>
    obtain rfl := Except.ok.inj isParent
    exact parentOf_of_parentChain coherent isFound

theorem reconsiderBlock_cases (hash : Hash)
    (coherent : Coherent settings tree finalized.tip.height finalized.tipHash state) :
    (∃ error, state.reconsiderBlock settings finalized hash = (.error error, state)) ∨
    ∃ recordHeight root rest parent chain middle,
      Restores settings tree finalized state hash recordHeight root rest parent chain middle ∧
      state.reconsiderBlock settings finalized hash =
        (.ok ((root :: rest).map fun block => block.hash), middle.retainPreciousBlocks) := by
  unfold reconsiderBlock
  split
  · exact .inl ⟨_, rfl⟩
  · exact .inl ⟨_, rfl⟩
  rename_i recordHeight root rest isFound
  dsimp only
  split
  · exact .inl ⟨_, rfl⟩
  rename_i chain modified
  obtain ⟨parent, isParent, isPushed⟩ := bind_eq_ok.mp modified
  split
  · exact .inl ⟨_, rfl⟩
  rename_i middle isInserted
  have isHash : root.hash = hash := by
    have isRoot := find?_some isFound
    simpa using isRoot
  exact .inr ⟨recordHeight, root, rest, parent, chain, middle,
    ⟨mem_of_find?_eq_some isFound, isHash, parentOf_of_reconsideredParent coherent isParent,
      mapError_eq_ok.mp isPushed, inserted_of_insertWith isInserted⟩, rfl⟩

omit [CommitmentHasher] in
theorem Coherent.forgetRecord (coherent : Coherent settings tree height tip state) :
    Coherent settings tree height tip (state.forgetRecord recordHeight finalizedHeight) :=
  coherent.forgotten filter_sublist

omit [CommitmentHasher] in
theorem Coherent.valid_of_forgetRecord {blocks : List ContextuallyVerifiedBlock}
    (coherent : Coherent settings tree height tip state)
    (recorded : (recordHeight, blocks) ∈ state.invalidatedBlocks) (isBlock : block ∈ blocks) :
    (state.forgetRecord recordHeight finalizedHeight).isInvalidated block.hash = false := by
  rw [Bool.eq_false_iff, ne_eq, isInvalidated_eq_true]
  rintro ⟨_, remains, _, isOther, same⟩
  obtain ⟨isRecord, isKept⟩ := mem_filter.mp remains
  obtain rfl := coherent.eq_of_recorded isRecord recorded isOther isBlock same
  exact (of_decide_eq_true isKept).1 rfl

section

variable (coherent : Coherent settings tree finalized.tip.height finalized.tipHash state)
  (restores : Restores settings tree finalized state hash recordHeight root rest parent chain next)
include coherent restores

theorem Restores.addable : Addable settings tree finalized.tip.height finalized.tipHash
        (state.forgetRecord recordHeight finalized.tip.height) chain ∧
      chain.listed = parent.listed ++ root :: rest ∧
      chain.tipHash = some (lastHash root.hash rest) := by
  obtain ⟨_, _, isRecord, _, linked⟩ := coherent.records _ restores.recorded
  obtain ⟨rfl, rfl⟩ := cons.inj isRecord
  obtain ⟨ends, same⟩ := restores.parentOf.endsIn.pushAll coherent.tipHeight linked restores.pushed
  obtain ⟨holds, isTip⟩ := ends.holds same
  refine ⟨coherent.forgetRecord.addable holds same restores.parentOf.known ?_ ?_, same, ?_⟩
  · intro old member block isBlock copy isCopy sameHash
    refine absurd (coherent.apart old member copy isCopy) (Bool.eq_false_iff.not_left.mpr ?_)
    exact isInvalidated_eq_true.mpr ⟨_, restores.recorded, block, isBlock, sameHash⟩
  · intro block isBlock
    exact coherent.valid_of_forgetRecord restores.recorded isBlock
  · rw [isTip, lastHash_cons]

theorem Restores.keeps_added :
    ∃ found ∈ next.chainSet, found.tipHash = some (lastHash root.hash rest) := by
  obtain ⟨addable, _, isTip⟩ := restores.addable coherent
  rw [← isTip]
  refine coherent.forgetRecord.keeps_added addable restores.inserted fun found _ sameTip => ?_
  rw [sameTip, isTip]
  refine decide_eq_true fun same => ?_
  obtain ⟨_, _, _, _, linked⟩ := coherent.records _ restores.recorded
  have above := linked.1.aboveParent
  rw [← some.inj same, linked.2.2.heightOf_lastHash, linked.1.isHeight] at above
  omega

theorem Restores.listed (member : found ∈ next.chainSet) (isListed : block ∈ found.chain.listed) :
    (∃ source ∈ state.chainSet, block ∈ source.chain.listed) ∨ block ∈ root :: rest := by
  rcases (restores.inserted.mem member).1 with old | rfl
  · exact .inl ⟨found, old, isListed⟩
  have isRestored : block ∈ chain.listed := isListed
  rw [(restores.addable coherent).2.1, mem_append] at isRestored
  rcases isRestored with early | late
  · exact .inl (restores.parentOf.known block early)
  · exact .inr late

end

theorem Restores.coherent
    (coherent : Coherent settings tree finalized.tip.height finalized.tipHash state)
    (restores : Restores settings tree finalized state hash recordHeight root rest parent chain next) :
    Coherent settings tree finalized.tip.height finalized.tipHash next.retainPreciousBlocks :=
  (coherent.forgetRecord.inserted (restores.addable coherent).1 restores.inserted).retained

end

/-- The state with a preference for a chain tip, before the chain is moved to its new place. -/
def withPreference (hash : Hash) (state : NonFinalizedState History) : NonFinalizedState History :=
  let sequence := min (state.preciousSequence + 1) (2 ^ 64 - 1)
  { state with
    preciousSequence := sequence
    preciousBlocks := state.preciousBlocks.insert hash sequence }.retainPreciousBlocks

/-- The preferring state without the chain. -/
def withoutPreferred (hash : Hash) (chain : PreferredChain History)
    (state : NonFinalizedState History) : NonFinalizedState History :=
  { state.withPreference hash with
    chainSet := state.chainSet.filter fun other => other.order ≠ chain.order }

structure Prefers (state : NonFinalizedState History) (hash : Hash)
    (chain : PreferredChain History) (next : NonFinalizedState History) : Prop where
  member : chain ∈ state.chainSet
  isTip : chain.tipHash = some hash
  moved : next = { state.withPreference hash with
    chainSet := insertChain ((state.withPreference hash).withTipPreference chain.chain)
      (state.chainSet.filter fun other => other.order ≠ chain.order) }

theorem preciousBlock_cases (state : NonFinalizedState History) (hash : Hash)
    (finalized : FinalizedState History) :
    (∃ error, state.preciousBlock hash finalized = (.error error, state)) ∨
    state.preciousBlock hash finalized = (.ok (), state) ∨
    ∃ chain next, Prefers state hash chain next ∧
      state.preciousBlock hash finalized = (.ok (), next) := by
  unfold preciousBlock
  split
  · split
    · exact .inr (.inl rfl)
    · exact .inl ⟨_, rfl⟩
  rename_i chain isFound
  split
  · exact .inl ⟨_, rfl⟩
  split
  · exact .inr (.inl rfl)
  · have isTip := find?_some isFound
    refine .inr (.inr ?_)
    exact ⟨chain, _, ⟨mem_of_find?_eq_some isFound, of_decide_eq_true isTip, rfl⟩, rfl⟩

section

variable (coherent : Coherent settings tree height tip state)
  (prefers : Prefers state hash chain next)
include coherent prefers

theorem Prefers.addable : Coherent settings tree height tip (state.withoutPreferred hash chain) ∧
      Addable settings tree height tip (state.withoutPreferred hash chain) chain.chain := by
  constructor
  · refine (coherent.dropped filter_sublist).preferring ?_
    intro other isOther otherHash isOtherTip
    obtain ⟨member, differs⟩ := mem_filter.mp isOther
    have otherTip : otherHash ≠ hash := by
      rintro rfl
      have same := coherent.eq_of_tip member prefers.member (isOtherTip.trans prefers.isTip.symm)
      exact of_decide_eq_true differs (congrArg (·.order) same)
    obtain ⟨_, isFound, contained⟩ := coherent.contains_tip member
    obtain rfl := mem_unique isFound isOtherTip
    unfold withPreference
    rw [lookup_retainPreciousBlocks]
    · exact Finmap.lookup_insert_of_ne _ otherTip
    · exact contained
  · refine ⟨coherent.holds chain prefers.member, ?_, coherent.apart chain prefers.member⟩
    intro old member
    exact coherent.copies chain prefers.member old (mem_of_mem_filter member)

theorem Prefers.inserted :
    Inserted (state.withoutPreferred hash chain) chain.chain (fun _ => true) next := by
  have fewer : (state.chainSet.filter fun other => other.order ≠ chain.order).length <
      state.chainSet.length := by
    rw [length_filter_lt_length_iff_exists]
    exact ⟨chain, prefers.member, by simp⟩
  have all : next.chainSet =
      candidates (state.withoutPreferred hash chain) chain.chain (fun _ => true) := by
    rw [prefers.moved]
    exact (filter_eq_self.mpr fun _ _ => rfl).symm
  refine ⟨?_, ?_, ?_, ?_, ?_⟩
  · rw [prefers.moved]
    rfl
  · rw [all]
  · rw [prefers.moved]
    exact RankedSet.length_insert_le.trans ((Nat.succ_le_of_lt fewer).trans coherent.bounded)
  · intro found candidate _
    rw [all]
    exact candidate
  · intro _ found candidate gone
    rw [all] at gone
    exact absurd candidate gone

end

theorem Prefers.listed (prefers : Prefers state hash chain next) (member : found ∈ next.chainSet)
    (isListed : block ∈ found.chain.listed) :
    ∃ source ∈ state.chainSet, block ∈ source.chain.listed := by
  rw [prefers.moved] at member
  rcases RankedSet.mem_insert.mp member with old | ⟨rfl, _⟩
  · exact ⟨found, mem_of_mem_filter old, isListed⟩
  · exact ⟨chain, prefers.member, isListed⟩

theorem Prefers.keeps_tips (coherent : Coherent settings tree height tip state)
    (prefers : Prefers state hash chain next) (member : found ∈ state.chainSet) :
    ∃ kept ∈ next.chainSet, kept.tipHash = found.tipHash := by
  by_cases same : found.order = chain.order
  · obtain rfl := coherent.ranked.eq_of_rank member prefers.member same
    obtain ⟨others, addable⟩ := prefers.addable coherent
    exact others.keeps_added addable (prefers.inserted coherent) fun _ _ _ => rfl
  · refine ⟨found, ?_, rfl⟩
    rw [prefers.moved]
    exact RankedSet.mem_insert.mpr (.inl (mem_filter.mpr ⟨member, decide_eq_true same⟩))

theorem Prefers.coherent (coherent : Coherent settings tree height tip state)
    (prefers : Prefers state hash chain next) : Coherent settings tree height tip next :=
  (prefers.addable coherent).1.inserted (prefers.addable coherent).2 (prefers.inserted coherent)

section

variable {processed : List (PreferredChain History)} {current : NonFinalizedState History}

/-- The set being rebuilt above a new finalized block: the processed chains with that root are in
it, without the root. -/
structure Rebuilt (settings : ChainSettings History) (tree : BlockTree) (height : Nat)
    (root : ContextuallyVerifiedBlock) (state : NonFinalizedState History)
    (processed : List (PreferredChain History)) (current : NonFinalizedState History) : Prop where
  coherent : Coherent settings tree (height + 1) root.hash current
  records : current.invalidatedBlocks = state.invalidatedBlocks
  known : ∀ found ∈ current.chainSet, ∃ source ∈ state.chainSet, ∃ first,
    first.hash = root.hash ∧ source.chain.listed = first :: found.chain.listed
  few : current.chainSet.length ≤ processed.length
  kept : ∀ source ∈ processed, ∀ first rest, source.chain.listed = first :: rest →
    first.hash = root.hash → rest ≠ [] → ∃ found ∈ current.chainSet, found.tipHash = source.tipHash

theorem rebuilt_nil (coherent : Coherent settings tree height tip state)
    (knows : tree.Knows root.hash root.block root.height)
    (isParent : root.block.header.previousBlockHash = tip) :
    Rebuilt settings tree height root state [] { state with chainSet := [] } := by
  have dropped := coherent.dropped (nil_sublist _)
  refine ⟨⟨?_, ?_, List.Pairwise.nil, Nat.zero_le _, ?_, ?_, ?_, dropped.records,
    dropped.recordsApart, dropped.recordsBounded⟩, rfl, ?_, Nat.zero_le _, ?_⟩
  · rw [knows.isHeight, ← knows.aboveParent, isParent, coherent.tipHeight]
  all_goals simp

theorem Rebuilt.skip (rebuilt : Rebuilt settings tree height root state processed current)
    (nothing : ∀ first rest, side.chain.listed = first :: rest → first.hash = root.hash → rest = []) :
    Rebuilt settings tree height root state (processed ++ [side]) current := by
  refine { rebuilt with few := ?_, kept := ?_ }
  · rw [length_append]
    exact rebuilt.few.trans (Nat.le_add_right _ _)
  intro source member first rest isListed isRoot nonempty
  rcases mem_append.mp member with earlier | new
  · exact rebuilt.kept source earlier first rest isListed isRoot nonempty
  · obtain rfl := mem_singleton.mp new
    exact absurd (nothing first rest isListed isRoot) nonempty

section

variable (coherent : Coherent settings tree height tip state)
  (rebuilt : Rebuilt settings tree height root state processed current)
include coherent rebuilt

theorem Rebuilt.add (member : side ∈ state.chainSet)
    (isListed : side.chain.listed = sideRoot :: popped.listed) (isRoot : sideRoot.hash = root.hash)
    (holds : popped.Holds settings tree (height + 1) root.hash)
    (isInserted : current.insert popped = .ok next)
    (room : processed.length < maxNonFinalizedChainForks) :
    Rebuilt settings tree height root state (processed ++ [side]) next := by
  have inserted := inserted_of_insertWith isInserted
  have above : popped.listed ⊆ side.chain.listed := by
    rw [isListed]
    exact subset_cons_self _ _
  have addable : Addable settings tree (height + 1) root.hash current popped := by
    refine ⟨holds, ?_, ?_⟩
    · intro old isOld block isBlock copy isCopy
      obtain ⟨source, isSource, first, _, split⟩ := rebuilt.known old isOld
      refine coherent.copies side member source isSource block (above isBlock) copy ?_
      rw [split]
      exact mem_cons_of_mem _ isCopy
    · intro block isBlock
      unfold isInvalidated
      rw [rebuilt.records]
      exact coherent.apart side member block (above isBlock)
  have sameTip : popped.tipHash = side.tipHash := by
    obtain ⟨early, last, isLast⟩ := holds.exists_last
    have isSideLast : side.chain.listed = (sideRoot :: early) ++ [last] := by
      rw [isListed, isLast, cons_append]
    rw [(holds.tip isLast).2]
    exact ((coherent.holds side member).tip isSideLast).2.symm
  have length : next.chainSet.length ≤ processed.length + 1 := by
    exact (inserted.sublist.length_le.trans (current.length_candidates_le popped _)).trans
      (Nat.succ_le_succ rebuilt.few)
  refine ⟨rebuilt.coherent.inserted addable inserted, ?_, ?_, ?_, ?_⟩
  · exact inserted.records.trans rebuilt.records
  · intro found isFound
    rcases (inserted.mem isFound).1 with old | rfl
    · exact rebuilt.known found old
    · exact ⟨side, member, sideRoot, isRoot, isListed⟩
  · rw [length_append]
    exact length
  intro source isProcessed first rest split isFirst nonempty
  rcases mem_append.mp isProcessed with earlier | new
  · obtain ⟨found, isFound, isTip⟩ := rebuilt.kept source earlier first rest split isFirst nonempty
    refine ⟨found, ?_, isTip⟩
    rw [inserted.eq_candidates rebuilt.coherent.candidates_ranked (rebuilt.few.trans_lt room)]
    exact mem_filter.mpr ⟨RankedSet.mem_insert.mpr (.inl isFound), rfl⟩
  · obtain rfl := mem_singleton.mp new
    rw [← sameTip]
    exact rebuilt.coherent.keeps_added addable inserted fun _ _ _ => rfl

theorem Rebuilt.pop (member : side ∈ state.chainSet)
    (isPopped : side.chain.popRoot settings = .ok ((sideRoot, treestate), popped))
    (isRoot : sideRoot.hash = root.hash) (isNext : current.insertPopped popped = .ok next)
    (room : processed.length < maxNonFinalizedChainForks) :
    Rebuilt settings tree height root state (processed ++ [side]) next := by
  obtain ⟨isListed, _, isEmpty, holds⟩ := (coherent.holds side member).popRoot isPopped
  unfold insertPopped at isNext
  split at isNext
  next empty =>
    obtain rfl := Except.ok.inj isNext
    refine rebuilt.skip ?_
    intro first rest split _
    rw [isListed, cons.injEq] at split
    rw [← split.2]
    exact isEmpty.mp empty
  next nonempty =>
    exact rebuilt.add coherent member isListed isRoot (isRoot ▸ holds (mt isEmpty.mpr nonempty))
      isNext room

theorem Rebuilt.sides {sides : List (PreferredChain History)}
    (members : ∀ side ∈ sides, side ∈ state.chainSet)
    (room : processed.length + sides.length ≤ maxNonFinalizedChainForks)
    (isFinalized : finalizeSideChains settings root.hash sides current = .ok next) :
    Rebuilt settings tree height root state (processed ++ sides) next := by
  induction sides generalizing processed current with
  | nil =>
    obtain rfl := Except.ok.inj isFinalized
    rw [append_nil]
    exact rebuilt
  | cons side rest ih =>
    rw [finalizeSideChains, bind_eq_ok] at isFinalized
    obtain ⟨_, isRootHash, isFinalized⟩ := isFinalized
    rw [expect_eq_ok] at isRootHash
    rw [length_cons] at room
    have lengths : (processed ++ [side]).length = processed.length + 1 := by simp
    have others : ∀ other ∈ rest, other ∈ state.chainSet := fun other isOther =>
      members other (mem_cons_of_mem _ isOther)
    have isMember := members side mem_cons_self
    rw [← singleton_append, ← append_assoc]
    split at isFinalized
    next differs =>
      refine ih (rebuilt.skip ?_) others (by omega) isFinalized
      intro first late split isRoot
      rw [(coherent.holds side isMember).rootHash split] at isRootHash
      exact absurd (isRoot ▸ some.inj isRootHash.symm) differs
    simp only [bind_eq_ok, assert_eq_ok] at isFinalized
    obtain ⟨⟨⟨_, _⟩, _⟩, isPopped, _, isRoot, _, isMiddle, isFinalized⟩ :=
      isFinalized
    exact ih (rebuilt.pop coherent isMember isPopped isRoot isMiddle (by omega)) others (by omega)
      isFinalized

end

theorem finalize_eq_ok (coherent : Coherent settings tree height tip state)
    (isFinalized : state.finalize settings = .ok ((root, treestate), next)) :
    ∃ best rest rebuilt, state.bestChain = some best ∧ best.chain.listed = root :: rest ∧
      best.chain.treestate root.height = some treestate ∧ (∃ processed, state.chainSet ⊆ processed ∧
        Rebuilt settings tree height root state processed rebuilt) ∧
      next = { rebuilt with invalidatedBlocks := rebuilt.invalidatedBlocks.filter fun record =>
        root.height ≤ record.1 }.retainPreciousBlocks := by
  simp only [finalize, bind_eq_ok, expect_eq_ok, pure_eq_ok] at isFinalized
  obtain ⟨best, isBest, ⟨⟨found, _⟩, popped⟩, isPopped, bestKept, isKept, rebuilt,
    isRebuilt, same⟩ := isFinalized
  obtain ⟨⟨rfl, rfl⟩, rfl⟩ := by simpa using same
  have member : best ∈ state.chainSet := mem_of_getLast? isBest
  have holds := coherent.holds best member
  obtain ⟨isListed, isTreestate, _⟩ := holds.popRoot isPopped
  have linked := holds.linked
  rw [isListed] at linked
  have size : state.chainSet.dropLast.length + 1 = state.chainSet.length := by
    rw [length_dropLast]
    exact Nat.sub_add_cancel (length_pos_of_mem member)
  have bounded := coherent.bounded
  have first : Rebuilt settings tree height found state [best] bestKept :=
    (rebuilt_nil coherent linked.1 linked.2.1).pop coherent member isPopped rfl isKept
      (Nat.zero_lt_succ _)
  have sides : ∀ side ∈ state.chainSet.dropLast.reverse, side ∈ state.chainSet := fun side isSide =>
    mem_of_mem_dropLast (mem_reverse.mp isSide)
  have room : [best].length + state.chainSet.dropLast.reverse.length ≤
      maxNonFinalizedChainForks := by
    rw [length_reverse, length_singleton]
    omega
  refine ⟨best, popped.listed, rebuilt, isBest, isListed, isTreestate,
    ⟨_, ?_, first.sides coherent sides room isRebuilt⟩, rfl⟩
  intro chain isChain
  rw [← dropLast_append_getLast? best isBest] at isChain
  simpa [or_comm] using isChain

end

end NonFinalizedState

end Zakura.NonFinalized
