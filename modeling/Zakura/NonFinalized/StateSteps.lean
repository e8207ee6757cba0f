import Zakura.NonFinalized.ChainBlocks
import Zakura.NonFinalized.Proposal
import Zakura.NonFinalized.StateCore

/-!
What the operations of the non-finalized state do to its chains, for blocks whose
hashes identify them.
-/

namespace Zakura.NonFinalized

open HeaderChain (Hash)
open FiniteMap Fallible List Except ContextuallyVerifiedBlock

structure BlockTree where
  blockOf : Hash → Block
  heightOf : Hash → Nat

structure BlockTree.Knows (tree : BlockTree) (hash : Hash) (block : Block) (height : Nat) :
    Prop where
  isBlock : tree.blockOf hash = block
  isHeight : tree.heightOf hash = height
  aboveParent : tree.heightOf block.header.previousBlockHash + 1 = height

variable {tree : BlockTree} {History : Type} {parent : Hash}

section

variable {block other : ContextuallyVerifiedBlock}
  {blocks first rest otherFirst otherRest : List ContextuallyVerifiedBlock}

def Linked (tree : BlockTree) : Hash → List ContextuallyVerifiedBlock → Prop
  | _, [] => True
  | parent, block :: rest => tree.Knows block.hash block.block block.height ∧
      block.block.header.previousBlockHash = parent ∧ Linked tree block.hash rest

def lastHash (parent : Hash) (blocks : List ContextuallyVerifiedBlock) : Hash :=
  (blocks.getLast?.map (·.hash)).getD parent

theorem lastHash_cons : lastHash parent (block :: rest) = lastHash block.hash rest := by
  unfold lastHash
  rw [getLast?_cons]
  cases rest.getLast? <;> rfl

theorem lastHash_concat : lastHash parent (first ++ [block]) = block.hash := by
  simp [lastHash]

theorem lastHash_congr (same : first.map (·.hash) = rest.map (·.hash)) :
    lastHash parent first = lastHash parent rest := by
  unfold lastHash
  rw [← getLast?_map, ← getLast?_map, same]

theorem linked_append : Linked tree parent (first ++ rest) ↔
    Linked tree parent first ∧ Linked tree (lastHash parent first) rest := by
  induction first generalizing parent with
  | nil => simp [Linked, lastHash]
  | cons block others ih =>
    rw [cons_append, Linked, Linked, ih, lastHash_cons, and_assoc, and_assoc]

theorem Linked.knows (linked : Linked tree parent blocks) (member : block ∈ blocks) :
    tree.Knows block.hash block.block block.height := by
  induction blocks generalizing parent with
  | nil => cases member
  | cons head others ih =>
    rcases mem_cons.mp member with rfl | later
    · exact linked.1
    · exact ih linked.2.2 later

theorem Linked.knows_at (linked : Linked tree parent (first ++ block :: rest)) :
    tree.Knows block.hash block.block block.height :=
  linked.knows (mem_append_right first mem_cons_self)

theorem Linked.heightOf_lastHash (linked : Linked tree parent blocks) :
    tree.heightOf (lastHash parent blocks) = tree.heightOf parent + blocks.length := by
  induction blocks generalizing parent with
  | nil => rfl
  | cons head others ih =>
    obtain ⟨knows, isParent, later⟩ := linked
    rw [lastHash_cons, ih later, knows.isHeight, ← knows.aboveParent, isParent, length_cons]
    omega

theorem Linked.height (linked : Linked tree parent (first ++ block :: rest)) :
    block.height = tree.heightOf parent + first.length + 1 := by
  obtain ⟨early, knows, isParent, _⟩ := linked_append.mp linked
  rw [← knows.aboveParent, isParent, early.heightOf_lastHash]

theorem Linked.parents (linked : Linked tree parent blocks) :
    blocks.IsChain fun block child => child.block.header.previousBlockHash = block.hash := by
  induction blocks generalizing parent with
  | nil => exact .nil
  | cons head others ih =>
    have later := ih linked.2.2
    cases others with
    | nil => exact .singleton _
    | cons next rest => exact .cons_cons linked.2.2.2.1 later

theorem Linked.same_ancestors (linked : Linked tree parent (first ++ block :: rest))
    (otherLinked : Linked tree parent (otherFirst ++ other :: otherRest))
    (same : block.hash = other.hash) : first.map (·.hash) = otherFirst.map (·.hash) := by
  induction first using reverseRecOn generalizing block rest other otherFirst otherRest with
  | nil =>
    have height := linked.height
    have otherHeight := otherLinked.height
    have knows := linked.knows_at
    have otherKnows := otherLinked.knows_at
    rw [← knows.isHeight, same, otherKnows.isHeight, otherHeight, length_nil] at height
    have empty : otherFirst = [] := eq_nil_of_length_eq_zero (by omega)
    rw [empty]
  | append_singleton early last ih =>
    have height := linked.height
    have otherHeight := otherLinked.height
    have knows := linked.knows_at
    have otherKnows := otherLinked.knows_at
    rw [← knows.isHeight, same, otherKnows.isHeight, otherHeight, length_append,
      length_singleton] at height
    rcases eq_nil_or_concat otherFirst with rfl | ⟨_, otherLast, rfl⟩
    · rw [length_nil] at height
      omega
    rw [concat_eq_append] at otherLinked ⊢
    have parents : last.hash = otherLast.hash := by
      have isParent := (linked_append.mp linked).2.2.1
      have isOtherParent := (linked_append.mp otherLinked).2.2.1
      rw [lastHash_concat] at isParent isOtherParent
      rw [← isParent, ← isOtherParent, ← knows.isBlock, ← otherKnows.isBlock, same]
    rw [append_assoc, singleton_append] at linked otherLinked
    have ancestors := ih linked otherLinked parents
    rw [map_append, map_append, ancestors]
    simp [parents]

theorem Linked.has_ancestor {later copy : ContextuallyVerifiedBlock}
    (linked : Linked tree parent (first ++ block :: rest)) (otherLinked : Linked tree parent blocks)
    (isLater : later ∈ block :: rest) (isCopy : copy ∈ blocks) (same : copy.hash = later.hash) :
    ∃ found ∈ blocks, found.hash = block.hash := by
  obtain ⟨middle, _, split⟩ := append_of_mem isLater
  obtain ⟨early, others, rfl⟩ := append_of_mem isCopy
  rw [split, ← append_assoc] at linked
  have ancestors := otherLinked.same_ancestors linked same
  cases middle with
  | nil =>
    rw [nil_append, cons.injEq] at split
    exact ⟨copy, isCopy, same.trans (congrArg (·.hash) split.1.symm)⟩
  | cons head others =>
    rw [cons_append, cons.injEq] at split
    have listed : block.hash ∈ early.map (·.hash) := by
      rw [ancestors, split.1]
      simp
    obtain ⟨found, member, isFound⟩ := mem_map.mp listed
    exact ⟨found, mem_append_left _ member, isFound⟩

end

variable {settings : ChainSettings History} {height : Nat} {chain : Chain History}

namespace Chain

variable {forkTip hash : Hash} {block root : ContextuallyVerifiedBlock}
  {blocks first rest : List ContextuallyVerifiedBlock} {next other forked : Chain History}

def listed (chain : Chain History) : List ContextuallyVerifiedBlock :=
  FiniteMap.values chain.blocks

structure Holds (settings : ChainSettings History) (tree : BlockTree) (height : Nat)
    (parent : Hash) (chain : Chain History) : Prop where
  nonempty : chain.listed ≠ []
  represents : Represents settings height chain.listed chain
  linked : Linked tree parent chain.listed

theorem Represents.listed (represents : Represents settings height blocks chain) :
    chain.listed = blocks :=
  represents.values

theorem Represents.holds (represents : Represents settings height blocks chain)
    (nonempty : blocks ≠ []) (linked : Linked tree parent blocks) :
    Holds settings tree height parent chain := by
  have same := represents.listed
  exact ⟨same ▸ nonempty, same ▸ represents, same ▸ linked⟩

namespace Holds

variable (holds : Holds settings tree height parent chain)

include holds

theorem contains (hash : Hash) :
    (chain.index.heightByHash.lookup hash).isSome ↔ ∃ block ∈ chain.listed, block.hash = hash := by
  rw [holds.represents.contains, mem_map]

theorem exists_last : ∃ first block, chain.listed = first ++ [block] := by
  rcases eq_nil_or_concat chain.listed with empty | ⟨first, block, same⟩
  · exact absurd empty holds.nonempty
  · exact ⟨first, block, same.trans concat_eq_append⟩

theorem tip (isLast : chain.listed = first ++ [block]) :
    chain.tipBlock = some block ∧ chain.tipHash = some block.hash := by
  have represents := holds.represents
  rw [isLast] at represents
  exact ⟨represents.tip, represents.tipHash⟩

theorem tip_listed (isTip : chain.tipHash = some hash) :
    ∃ first block, chain.listed = first ++ [block] ∧ block.hash = hash := by
  obtain ⟨first, block, same⟩ := holds.exists_last
  exact ⟨first, block, same, Option.some.inj ((holds.tip same).2.symm.trans isTip)⟩

theorem rootHash (isFirst : chain.listed = block :: rest) : chain.rootHash = some block.hash := by
  have represents := holds.represents
  rw [isFirst] at represents
  obtain ⟨rootHeight, isHeight⟩ := represents.rootHeight
  have found := (represents.held _ _).mpr ⟨mem_cons_self, isHeight⟩
  simp [Chain.rootHash, rootHeight, found]

theorem fork (isForked : chain.fork settings forkTip = .ok (some forked)) :
    Holds settings tree height parent forked ∧ forked.tipHash = some forkTip ∧
      forked.listed <+: chain.listed := by
  obtain ⟨_, _, rest, same, isTip, represents⟩ := holds.represents.fork isForked
  have linked := holds.linked
  rw [same, ← singleton_append, ← append_assoc, linked_append] at linked
  have forkedHolds := represents.holds (by simp) linked.1
  refine ⟨forkedHolds, ?_, ?_⟩
  · rw [represents.tipHash, isTip]
  · rw [represents.listed, same]
    exact ⟨rest, by simp⟩

section

variable (otherHolds : Holds settings tree height parent other) (isTip : chain.tipHash = some hash)
  (isOtherTip : other.tipHash = some hash)
include otherHolds isTip isOtherTip

theorem same_hashes : chain.listed.map (·.hash) = other.listed.map (·.hash) := by
  obtain ⟨_, _, same, lastIs⟩ := holds.tip_listed isTip
  obtain ⟨_, _, otherSame, otherLastIs⟩ := otherHolds.tip_listed isOtherTip
  have linked := holds.linked
  have otherLinked := otherHolds.linked
  rw [same] at linked ⊢
  rw [otherSame] at otherLinked ⊢
  have ancestors := linked.same_ancestors otherLinked (lastIs.trans otherLastIs.symm)
  rw [map_append, map_append, ancestors]
  simp [lastIs, otherLastIs]

theorem same_work : chain.index.partialCumulativeWork = other.index.partialCumulativeWork := by
  have workOf {blocks : List ContextuallyVerifiedBlock} (linked : Linked tree parent blocks) :
      (blocks.map fun block => block.work.getD 0) = (blocks.map (·.hash)).map fun hash =>
        ((tree.blockOf hash).header.difficultyThreshold.toWork).getD 0 := by
    rw [map_map]
    refine map_congr_left fun block member => ?_
    simp only [Function.comp_apply, (linked.knows member).isBlock]
    rfl
  rw [holds.represents.work, otherHolds.represents.work, workOf holds.linked,
    workOf otherHolds.linked, holds.same_hashes otherHolds isTip isOtherTip]

end

end Holds

theorem Holds.popRoot {treestate : Treestate History}
    (holds : Holds settings tree height parent chain)
    (isPopped : chain.popRoot settings = .ok ((root, treestate), next)) :
    chain.listed = root :: next.listed ∧ chain.treestate root.height = some treestate ∧
      (next.isEmpty = true ↔ next.listed = []) ∧
      (next.listed ≠ [] → Holds settings tree (height + 1) root.hash next) := by
  have represents := holds.represents
  have linked := holds.linked
  rcases isListed : chain.listed with _ | ⟨_, _⟩
  · exact absurd isListed holds.nonempty
  rw [isListed] at represents linked
  obtain ⟨rfl, isTreestate, above⟩ := represents.popRoot isPopped
  have same := above.listed
  rw [same]
  exact ⟨rfl, isTreestate, above.isEmpty, fun nonempty => above.holds nonempty linked.2.2⟩

theorem Represents.childBlocks (represents : Represents settings height (first ++ block :: rest) chain) :
    chain.childBlocks block.height = block :: rest := by
  obtain ⟨early, late⟩ := represents.heights_append
  have isHeight : block.height = height + first.length + 1 := by
    rw [map_cons, length_cons, range'_succ, cons.injEq] at late
    exact late.1
  have below : (first.map (·.height)).filter (block.height ≤ ·) = [] := by
    rw [filter_eq_nil_iff, early]
    intro found member
    rw [mem_range'_1] at member
    simp only [decide_eq_true_eq]
    omega
  have above : ((block :: rest).map (·.height)).filter (block.height ≤ ·) =
      (block :: rest).map (·.height) := by
    rw [filter_eq_self, late]
    intro found member
    rw [mem_range'_1] at member
    simp only [decide_eq_true_eq]
    omega
  unfold Chain.childBlocks
  rw [represents.ascending_keys, map_append, filter_append, below, above, nil_append]
  exact represents.read (subset_append_right _ _)

theorem Holds.invalidateBlock (holds : Holds settings tree height parent chain)
    (isInvalidated : chain.invalidateBlock settings hash = .ok (some (next, blocks))) :
    ∃ first block rest, chain.listed = first ++ block :: rest ∧ block.hash = hash ∧
      blocks = block :: rest ∧ Represents settings height first next := by
  unfold Chain.invalidateBlock at isInvalidated
  split at isInvalidated
  · cases isInvalidated
  rename_i atHeight isFiled
  obtain ⟨result, isForked, isInvalidated⟩ := bind_eq_ok.mp isInvalidated
  cases result with
  | none => cases isInvalidated
  | some forked =>
    obtain ⟨_, isPopped, same⟩ := bind_eq_ok.mp isInvalidated
    obtain ⟨rfl, rfl⟩ := Prod.mk.inj (Option.some.inj (pure_eq_ok.mp same))
    obtain ⟨first, block, rest, split, isHash, represents⟩ := holds.represents.fork isForked
    have whole := holds.represents
    obtain ⟨other, listed, sameHash, sameHeight⟩ := (whole.filed _ _).mp isFiled
    have isBlock : other = block := by
      refine inj_on_of_nodup_map whole.hashes_nodup listed ?_ (sameHash.trans isHash.symm)
      rw [split]
      simp
    rw [split] at whole
    refine ⟨first, block, rest, split, isHash, ?_, (represents.popTip isPopped).2⟩
    rw [← sameHeight, isBlock]
    exact whole.childBlocks

/-- A chain of known blocks that ends in the given block, or an empty one on the finalized tip. -/
structure EndsIn (settings : ChainSettings History) (tree : BlockTree) (height : Nat)
    (parent hash : Hash) (chain : Chain History) : Prop where
  represents : Represents settings height chain.listed chain
  linked : Linked tree parent chain.listed
  last : lastHash parent chain.listed = hash

theorem Holds.endsIn (holds : Holds settings tree height parent chain)
    (isTip : chain.tipHash = some hash) : EndsIn settings tree height parent hash chain := by
  obtain ⟨_, _, same, lastIs⟩ := holds.tip_listed isTip
  refine ⟨holds.represents, holds.linked, ?_⟩
  rw [same, lastHash_concat, lastIs]

theorem endsIn_of_new [CommitmentHasher] {tip : FinalizedTip History}
    (isNew : Chain.new tip = .ok chain) :
    EndsIn settings tree tip.height parent parent chain ∧ chain.listed = [] := by
  have represents : Represents settings tip.height [] chain := represents_new isNew
  have none := represents.listed
  exact ⟨⟨none ▸ represents, none ▸ trivial, none ▸ rfl⟩, none⟩

section

variable (ends : EndsIn settings tree height parent hash chain)
include ends

theorem EndsIn.cases : hash = parent ∨ ∃ block ∈ chain.listed, block.hash = hash := by
  rcases eq_nil_or_concat chain.listed with empty | ⟨_, last, same⟩
  · exact .inl (ends.last.symm.trans (empty ▸ rfl))
  · rw [concat_eq_append] at same
    refine .inr ⟨last, same ▸ by simp, ?_⟩
    rw [← ends.last, same, lastHash_concat]

theorem EndsIn.push [CommitmentHasher] (tipHeight : tree.heightOf parent = height)
    (knows : tree.Knows block.hash block.block block.height)
    (isParent : block.block.header.previousBlockHash = hash)
    (isPushed : chain.push settings block = .ok next) :
    EndsIn settings tree height parent block.hash next ∧ next.listed = chain.listed ++ [block] := by
  have above : block.height = height + chain.listed.length + 1 := by
    rw [← knows.aboveParent, isParent, ← ends.last, ends.linked.heightOf_lastHash, tipHeight]
  have represents := ends.represents.push above isPushed
  have same := represents.listed
  refine ⟨⟨same ▸ represents, ?_, ?_⟩, same⟩
  · rw [same]
    exact linked_append.mpr ⟨ends.linked, knows, isParent.trans ends.last.symm, trivial⟩
  · rw [same, lastHash_concat]

theorem EndsIn.pushAll [CommitmentHasher] (tipHeight : tree.heightOf parent = height)
    (linked : Linked tree hash blocks) (isPushed : chain.pushAll settings blocks = .ok next) :
    EndsIn settings tree height parent (lastHash hash blocks) next ∧
      next.listed = chain.listed ++ blocks := by
  induction blocks generalizing chain hash with
  | nil =>
    obtain rfl := pure_eq_ok.mp isPushed
    exact ⟨ends, (append_nil _).symm⟩
  | cons block rest ih =>
    rw [Chain.pushAll, foldlM_cons, bind_eq_ok] at isPushed
    obtain ⟨_, isMiddle, isPushed⟩ := isPushed
    obtain ⟨knows, isParent, restLinked⟩ := linked
    obtain ⟨middleEnds, middleListed⟩ := ends.push tipHeight knows isParent isMiddle
    obtain ⟨nextEnds, nextListed⟩ := ih middleEnds restLinked isPushed
    rw [lastHash_cons]
    exact ⟨nextEnds, by rw [nextListed, middleListed, append_assoc, singleton_append]⟩

theorem EndsIn.holds (same : chain.listed = first ++ block :: blocks) :
    Holds settings tree height parent chain ∧ chain.tipHash = some hash := by
  have nonempty : chain.listed ≠ [] := by
    rw [same]
    simp
  have holds : Holds settings tree height parent chain := ⟨nonempty, ends.represents, ends.linked⟩
  obtain ⟨_, last, isLast⟩ := holds.exists_last
  refine ⟨holds, ?_⟩
  rw [(holds.tip isLast).2, ← ends.last, isLast, lastHash_concat]

end

end Chain

section

variable {insertedTip : Hash} {excess : Nat} {chains kept : List (PreferredChain History)}

structure Evicts (insertedTip : Hash) (excess : Nat) (chains kept : List (PreferredChain History)) :
    Prop where
  sublist : kept.Sublist chains
  length : kept.length + excess = chains.length
  inserted : ∀ chain ∈ chains, chain.tipHash = some insertedTip → chain ∈ kept
  lowest : RankedSet.Ranked PreferredChain.order chains → ∀ found ∈ chains, found ∉ kept →
    ∀ other ∈ kept, other.tipHash ≠ some insertedTip → found.order < other.order

theorem evictForks_spec (evicted : evictForks insertedTip excess chains = .ok kept) :
    Evicts insertedTip excess chains kept := by
  induction excess generalizing chains with
  | zero =>
    obtain rfl := ok.inj evicted
    exact ⟨.refl _, rfl, fun _ member _ => member, fun _ _ member gone => absurd member gone⟩
  | succ excess ih =>
    rw [evictForks, ite_eq_ok] at evicted
    obtain ⟨_, isCandidate, holds⟩ := any_eq_true.mp evicted.1
    obtain ⟨removed, below, above, belowInserted, differs, rfl, erased⟩ :=
      exists_of_eraseP (p := fun chain => chain.tipHash ≠ some insertedTip) isCandidate holds
    rw [erased] at evicted
    obtain ⟨sublist, length, inserted, lowest⟩ := ih evicted.2
    have fewer : (below ++ above).Sublist (below ++ removed :: above) :=
      (sublist_cons_self removed above).append_left below
    have remains {chain : PreferredChain History} (member : chain ∈ below ++ removed :: above)
        (other : chain ≠ removed) : chain ∈ below ++ above := by
      rw [mem_append, mem_cons] at member
      rw [mem_append]
      tauto
    refine ⟨sublist.trans fewer, ?_, fun chain member isTip => ?_,
      fun ranked found member gone other stays notInserted => ?_⟩
    · rw [length_append] at length ⊢
      rw [length_cons]
      omega
    · refine inserted chain (remains member ?_) isTip
      rintro rfl
      exact of_decide_eq_true differs isTip
    by_cases wasRemoved : found = removed
    · subst wasRemoved
      rcases mem_append.mp (sublist.mem stays) with isBelow | isAbove
      · exact absurd (decide_eq_true notInserted) (belowInserted other isBelow)
      · exact (pairwise_cons.mp (pairwise_append.mp ranked).2.1).1 other isAbove
    · exact lowest (ranked.sublist fewer) found (remains member wasRemoved) gone other stays
        notInserted

theorem exists_other (single : chains.countP (fun chain => chain.tipHash = some insertedTip) ≤ 1)
    (full : maxNonFinalizedChainForks ≤ chains.length) :
    ∃ other ∈ chains, other.tipHash ≠ some insertedTip := by
  by_contra none
  simp only [not_exists, not_and, not_not] at none
  rw [countP_eq_length.mpr fun chain member => decide_eq_true (none chain member)] at single
  unfold maxNonFinalizedChainForks at full
  omega

end

namespace NonFinalizedState

variable {state next : NonFinalizedState History} {keep : PreferredChain History → Bool}

def candidates (state : NonFinalizedState History) (chain : Chain History)
    (keep : PreferredChain History → Bool) : List (PreferredChain History) :=
  (insertChain (state.withTipPreference chain) state.chainSet).filter keep

structure Inserted (state : NonFinalizedState History) (chain : Chain History)
    (keep : PreferredChain History → Bool) (next : NonFinalizedState History) : Prop where
  others : next = { state with chainSet := next.chainSet }
  sublist : next.chainSet.Sublist (state.candidates chain keep)
  bounded : next.chainSet.length ≤ maxNonFinalizedChainForks
  kept : ∀ found ∈ state.candidates chain keep, found.tipHash = chain.tipHash →
    found ∈ next.chainSet
  lowest : RankedSet.Ranked PreferredChain.order (state.candidates chain keep) →
    ∀ found ∈ state.candidates chain keep, found ∉ next.chainSet →
      next.chainSet.length = maxNonFinalizedChainForks ∧
        ∀ other ∈ next.chainSet, other.tipHash ≠ chain.tipHash → found.order < other.order

theorem inserted_of_insertWith (isInserted : state.insertWith chain keep = .ok next) :
    Inserted state chain keep next := by
  simp only [insertWith, bind_eq_ok, expect_eq_ok, pure_eq_ok] at isInserted
  obtain ⟨_, isTip, kept, evicted, rfl⟩ := isInserted
  obtain ⟨sublist, length, inserted, lowest⟩ := evictForks_spec evicted
  refine ⟨rfl, sublist, ?_, ?_, ?_⟩
  · change kept.length ≤ _
    omega
  · intro found member sameTip
    exact inserted found member (sameTip.trans isTip)
  intro ranked found member gone
  refine ⟨?_, fun other stays notInserted =>
    lowest ranked found member gone other stays (isTip ▸ notInserted)⟩
  have shorter := mt sublist.eq_of_length fun same => gone (same ▸ member)
  change kept.length = _
  omega

variable {found : PreferredChain History} {holds : PreferredChain History → Bool}

theorem mem_candidates (member : found ∈ state.candidates chain keep) :
    (found ∈ state.chainSet ∨ found = state.withTipPreference chain) ∧ keep found = true := by
  obtain ⟨listed, isKept⟩ := mem_filter.mp member
  refine ⟨?_, isKept⟩
  rcases RankedSet.mem_insert.mp listed with old | ⟨new, _⟩
  · exact .inl old
  · exact .inr new

section

variable (inserted : Inserted state chain keep next)
include inserted

theorem Inserted.mem (member : found ∈ next.chainSet) :
    (found ∈ state.chainSet ∨ found = state.withTipPreference chain) ∧ keep found = true :=
  mem_candidates (inserted.sublist.mem member)

theorem Inserted.ranked (ranked : RankedSet.Ranked PreferredChain.order state.chainSet) :
    RankedSet.Ranked PreferredChain.order next.chainSet :=
  (ranked.insert _).sublist (inserted.sublist.trans filter_sublist)

theorem Inserted.records : next.invalidatedBlocks = state.invalidatedBlocks := by
  rw [inserted.others]

end

theorem length_candidates_le (state : NonFinalizedState History) (chain : Chain History)
    (keep : PreferredChain History → Bool) :
    (state.candidates chain keep).length ≤ state.chainSet.length + 1 :=
  (length_filter_le _ _).trans RankedSet.length_insert_le

theorem Inserted.eq_candidates (inserted : Inserted state chain keep next)
    (ranked : RankedSet.Ranked PreferredChain.order (state.candidates chain keep))
    (room : state.chainSet.length < maxNonFinalizedChainForks) :
    next.chainSet = state.candidates chain keep := by
  refine inserted.sublist.eq_of_length_le ?_
  by_contra fewer
  obtain ⟨found, member, gone⟩ : ∃ found ∈ state.candidates chain keep, found ∉ next.chainSet := by
    by_contra all
    simp only [not_exists, not_and, not_not] at all
    refine fewer (List.Subperm.length_le ?_)
    exact subperm_of_subset (List.Pairwise.imp (fun below same => by simp [same] at below) ranked) all
  have full := (inserted.lowest ranked found member gone).1
  have length := state.length_candidates_le chain keep
  omega

theorem findChain_eq_some (isFound : state.findChain holds = some found) :
    found ∈ state.chainSet ∧ holds found = true :=
  ⟨mem_reverse.mp (mem_of_find?_eq_some isFound), find?_some isFound⟩

theorem findChain_eq_none (isFound : state.findChain holds = none) :
    ∀ chain ∈ state.chainSet, ¬holds chain = true := by
  intro chain member
  exact find?_eq_none.mp isFound chain (mem_reverse.mpr member)

theorem isInvalidated_eq_true {hash : Hash} : state.isInvalidated hash = true ↔
    ∃ record ∈ state.invalidatedBlocks, ∃ block ∈ record.2, block.hash = hash := by
  simp [isInvalidated]

section

variable [CommitmentHasher] {tip parentHash : Hash} {parent : Chain History}

omit [CommitmentHasher] in
theorem firstFork_eq_some {chains : List (PreferredChain History)}
    (isForked : firstFork settings parentHash chains = .ok (some parent)) :
    ∃ chain ∈ chains, chain.chain.fork settings parentHash = .ok (some parent) := by
  induction chains with
  | nil => cases isForked
  | cons first rest ih =>
    rw [firstFork, bind_eq_ok] at isForked
    obtain ⟨result, forked, same⟩ := isForked
    cases result with
    | none =>
      obtain ⟨chain, member, found⟩ := ih same
      exact ⟨chain, mem_cons_of_mem _ member, found⟩
    | some found =>
      obtain rfl := Option.some.inj (pure_eq_ok.mp same)
      exact ⟨first, mem_cons_self, forked⟩

omit [CommitmentHasher] in
theorem parentChain_eq_ok
    (holds : ∀ chain ∈ state.chainSet, chain.chain.Holds settings tree height tip)
    (isParent : state.parentChain settings parentHash = .ok parent) :
    parent.Holds settings tree height tip ∧ parent.tipHash = some parentHash ∧
      ∃ source ∈ state.chainSet, parent.listed <+: source.chain.listed := by
  unfold parentChain at isParent
  split at isParent
  next found isFound =>
    obtain ⟨member, isTip⟩ := findChain_eq_some isFound
    obtain rfl := ok.inj isParent
    exact ⟨holds found member, of_decide_eq_true isTip, found, member, prefix_refl _⟩
  split at isParent
  · cases isParent
  next forked isForked =>
    obtain rfl := ok.inj isParent
    obtain ⟨source, member, found⟩ := firstFork_eq_some isForked
    obtain ⟨forkedHolds, isTip, early⟩ := (holds source (mem_reverse.mp member)).fork found
    exact ⟨forkedHolds, isTip, source, mem_reverse.mp member, early⟩
  · cases isParent

end

section

variable {prepared pinned : SemanticallyVerifiedBlock}

theorem checkBeforeContextualUpdate_same
    (checked : state.checkBeforeContextualUpdate prepared = .ok pinned) :
    pinned = { prepared with receiptOrder := pinned.receiptOrder } := by
  rw [checkBeforeContextualUpdate, bind_eq_ok] at checked
  obtain ⟨_, isPinned, checked⟩ := checked
  rw [ite_error_eq_ok, pure_eq_ok] at checked
  obtain ⟨_, rfl⟩ := checked
  unfold pinReceiptOrder at isPinned
  split at isPinned
  · obtain rfl := ok.inj isPinned
    rfl
  · simp only [bind_eq_ok, pure_eq_ok] at isPinned
    obtain ⟨_, _, rfl⟩ := isPinned
    rfl

theorem checkBeforeContextualUpdate_eq_ok {settings : ChainSettings History} {tree : BlockTree}
    {height : Nat} {tip : Hash}
    (holds : ∀ chain ∈ state.chainSet, chain.chain.Holds settings tree height tip)
    (checked : state.checkBeforeContextualUpdate prepared = .ok pinned) :
    state.isInvalidated prepared.hash = false ∧
      ((∀ chain ∈ state.chainSet, ∀ block ∈ chain.chain.listed, block.hash ≠ prepared.hash) ∨
        ∃ chain ∈ state.chainSet, ∃ block ∈ chain.chain.listed, block.hash = prepared.hash ∧
          block.receiptOrder = pinned.receiptOrder) := by
  rw [checkBeforeContextualUpdate, bind_eq_ok] at checked
  obtain ⟨_, isPinned, checked⟩ := checked
  rw [ite_error_eq_ok, pure_eq_ok] at checked
  obtain ⟨valid, rfl⟩ := checked
  refine ⟨Bool.eq_false_iff.mpr valid, ?_⟩
  unfold pinReceiptOrder at isPinned
  cases isFound : state.findChain (·.containsBlockHash prepared.hash) with
  | none =>
    refine .inl ?_
    intro chain member block listed same
    refine findChain_eq_none isFound chain member ?_
    exact ((holds chain member).contains _).mpr ⟨block, listed, same⟩
  | some chain =>
    rw [isFound] at isPinned
    simp only [bind_eq_ok, mapError_eq_ok, expect_eq_ok, pure_eq_ok, Option.bind_eq_some_iff]
      at isPinned
    obtain ⟨block, ⟨_, isFiled, isHeld⟩, rfl⟩ := isPinned
    obtain ⟨member, _⟩ := findChain_eq_some isFound
    have represents := (holds chain member).represents
    obtain ⟨other, listed, sameHash, sameHeight⟩ := (represents.filed _ _).mp isFiled
    have same : some other = some block :=
      ((represents.held _ _).mpr ⟨listed, sameHeight⟩).symm.trans isHeld
    obtain rfl := Option.some.inj same
    exact .inr ⟨chain, member, other, listed, sameHash, rfl⟩

variable [CommitmentHasher] {settings : ContextSettings History}
  {finalized : FinalizedState History} {newChain modified : Chain History}

structure Pushes (settings : ContextSettings History) (state : NonFinalizedState History)
    (prepared : SemanticallyVerifiedBlock) (parent : Chain History)
    (contextual : ContextuallyVerifiedBlock) (modified : Chain History) : Prop where
  checked : ∃ pinned, state.checkBeforeContextualUpdate prepared = .ok pinned ∧
    contextual.receiptOrder = pinned.receiptOrder
  block : contextual.block = prepared.block
  hash : contextual.hash = prepared.hash
  height : contextual.height = prepared.height
  pushed : parent.push settings.toChainSettings contextual = .ok modified

theorem push_of_validateAndUpdateParallel {contextual : ContextuallyVerifiedBlock}
    {root : Option (BitVec 256)} {trees : FiniteMap Root NoteCommitmentTree}
    (updated : validateAndUpdateParallel settings newChain contextual root trees = .ok modified) :
    newChain.push settings.toChainSettings contextual = .ok modified := by
  rw [validateAndUpdateParallel, bind_eq_ok] at updated
  obtain ⟨_, _, updated⟩ := updated
  split at updated
  · cases updated
  · rw [ite_eq_ok, bind_eq_ok] at updated
    obtain ⟨_, _, _, isPushed⟩ := updated
    exact mapError_eq_ok.mp isPushed

theorem pushes_of_validateAndCommit {cachedSpends : Option (FiniteMap OutPoint OrderedUtxo)}
    (committed : state.validateAndCommit settings finalized newChain prepared cachedSpends =
      .ok modified) :
    ∃ contextual, Pushes settings state prepared newChain contextual modified := by
  simp only [validateAndCommit, bind_eq_ok, mapError_eq_ok] at committed
  obtain ⟨pinned, checked, _, _, _, _, _, made, updated⟩ := committed
  have same := checkBeforeContextualUpdate_same checked
  simp only [withBlockAndSharedSpentUtxos, bind_eq_ok, pure_eq_ok] at made
  obtain ⟨_, _, rfl⟩ := made
  exact ⟨_, ⟨pinned, checked, rfl⟩, congrArg (·.block) same, congrArg (·.hash) same,
    congrArg (·.height) same, push_of_validateAndUpdateParallel updated⟩

def ReusableFor (settings : ChainSettings History) (parent : Chain History)
    (prepared : SemanticallyVerifiedBlock) (reusable : Reusable History) : Prop :=
  ∀ chain, reusable.chain = .ok chain →
    ∃ proposal, Chain.Accepted settings proposal parent chain ∧ prepared.Finishes proposal

theorem pushes_of_finishPreparedChain {parent preparedChain : Chain History}
    {proposal : ContextuallyVerifiedBlock}
    (accepted : Chain.Accepted settings.toChainSettings proposal parent preparedChain)
    (finishes : prepared.Finishes proposal)
    (finished : state.finishPreparedChain settings preparedChain prepared parent = .ok modified) :
    ∃ contextual, Pushes settings state prepared parent contextual modified := by
  simp only [finishPreparedChain, bind_eq_ok, mapError_eq_ok, expect_eq_ok, ite_eq_ok] at finished
  obtain ⟨pinned, checked, _, isHistory, _, _, isTip, contextual, shared, made⟩ := finished
  have same := checkBeforeContextualUpdate_same checked
  obtain rfl := Option.mem_unique accepted.tipBlock isTip
  have pinnedFinishes : pinned.Finishes proposal := by
    rw [same]
    exact { finishes with }
  obtain ⟨_, isFound, replaces⟩ :=
    fromSolvedProposal_succeeds pinnedFinishes
  rw [ok.inj (isFound.symm.trans shared)] at replaces
  obtain ⟨_, isParentHistory, equal⟩ := accepted.finish replaces
  obtain rfl := Option.mem_unique isParentHistory isHistory
  obtain ⟨block, hash, height, receiptOrder⟩ :=
    fromSolvedProposal_solved shared
  exact ⟨contextual, ⟨pinned, checked, receiptOrder⟩, block.trans (congrArg (·.block) same),
    hash.trans (congrArg (·.hash) same), height.trans (congrArg (·.height) same),
    (equal modified).mp made⟩

end

end NonFinalizedState

end Zakura.NonFinalized
