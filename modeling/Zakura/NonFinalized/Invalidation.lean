import Zakura.NonFinalized.StateRun

/-!
Invalidated blocks stay out of the chains: what was removed and recorded together is
refused until the record is reconsidered, replaced, evicted or finalized past.
-/

namespace Zakura.NonFinalized

open HeaderChain (Hash)
open FiniteMap Fallible NonFinalizedState List

variable {History : Type} {record : Nat × List ContextuallyVerifiedBlock}

section

variable {height : Nat} {blocks : List ContextuallyVerifiedBlock}
  {records : List (Nat × List ContextuallyVerifiedBlock)}

theorem mem_drop_insertRecord (bounded : records.length ≤ maxInvalidatedBlocks)
    (recorded : record ∈ records) (differs : height ≠ record.1)
    (stays : ¬(records.head? = some record ∧ records.length = maxInvalidatedBlocks ∧
      ∀ other ∈ records, other.1 ≠ height)) : record ∈ (insertRecord height blocks records).drop
      ((insertRecord height blocks records).length - maxInvalidatedBlocks) := by
  unfold insertRecord
  split
  · rw [length_map, Nat.sub_eq_zero_of_le bounded, drop_zero]
    refine mem_map.mpr ⟨record, recorded, ?_⟩
    rw [if_neg (Ne.symm differs)]
  rename_i absent
  simp only [any_eq_true, decide_eq_true_eq, not_exists, not_and] at absent
  rw [length_append, length_singleton]
  by_cases full : records.length = maxInvalidatedBlocks
  · cases records with
    | nil => cases recorded
    | cons oldest rest =>
      rw [full, Nat.add_sub_cancel_left, cons_append, drop_one, tail_cons]
      rcases mem_cons.mp recorded with rfl | later
      · exact absurd ⟨rfl, full, absent⟩ stays
      · exact mem_append_left _ later
  · rw [Nat.sub_eq_zero_of_le (by omega), drop_zero]
    exact mem_append_left _ recorded

theorem inserted_mem_drop_insertRecord (bounded : records.length ≤ maxInvalidatedBlocks) :
    (height, blocks) ∈ (insertRecord height blocks records).drop
      ((insertRecord height blocks records).length - maxInvalidatedBlocks) := by
  unfold insertRecord
  split
  next present =>
    obtain ⟨old, isOld, same⟩ := any_eq_true.mp present
    rw [length_map, Nat.sub_eq_zero_of_le bounded, drop_zero]
    refine mem_map.mpr ⟨old, isOld, ?_⟩
    rw [if_pos (of_decide_eq_true same)]
  · rw [length_append, length_singleton, drop_append_of_le_length]
    · exact mem_append_right _ mem_cons_self
    · unfold maxInvalidatedBlocks
      omega

end

namespace Operation

def Brings (state : NonFinalizedState History) (block : ContextuallyVerifiedBlock) :
    Operation History → Prop
  | .commitNewChain _ prepared => block.hash = prepared.hash
  | .commitBlock _ prepared => block.hash = prepared.hash
  | .reconsiderBlock hash => ∃ record ∈ state.invalidatedBlocks, ∃ root rest,
      record.2 = root :: rest ∧ root.hash = hash ∧ block ∈ record.2
  | _ => False

def CommitsHash (hash : Hash) : Operation History → Prop
  | .commitNewChain _ prepared => prepared.hash = hash
  | .commitBlock _ prepared => prepared.hash = hash
  | _ => False

/-- The operations after which the blocks of a record may come back: the record is reconsidered, or
another block of its height is invalidated, or it is the oldest record and there is no room for one
more. -/
def Lifts (state : NonFinalizedState History) (record : Nat × List ContextuallyVerifiedBlock) :
    Operation History → Prop
  | .reconsiderBlock hash => ∃ root rest, record.2 = root :: rest ∧ root.hash = hash
  | .invalidateBlock hash => ∃ source ∈ state.chainSet, ∃ block ∈ source.chain.listed,
      block.hash = hash ∧ (block.height = record.1 ∨
        state.invalidatedBlocks.head? = some record ∧
          state.invalidatedBlocks.length = maxInvalidatedBlocks ∧
          ∀ other ∈ state.invalidatedBlocks, other.1 ≠ block.height)
  | _ => False

end Operation

namespace ChainState

variable [CommitmentHasher] {settings : ContextSettings History} {tree : BlockTree}
  {state next : ChainState History} {operation : Operation History}

structure Moves (state : ChainState History) (operation : Operation History)
    (next : ChainState History) : Prop where
  chains : ∀ chain ∈ next.nonFinalized.chainSet, ∀ block ∈ chain.chain.listed,
    (∃ source ∈ state.nonFinalized.chainSet, block ∈ source.chain.listed) ∨
      operation.Brings state.nonFinalized block
  records : ∀ record ∈ next.nonFinalized.invalidatedBlocks,
    record ∈ state.nonFinalized.invalidatedBlocks ∨
      ∀ block ∈ record.2, ∃ source ∈ state.nonFinalized.chainSet, block ∈ source.chain.listed
  tip : next.finalized = state.finalized ∨ ∃ source ∈ state.nonFinalized.chainSet,
    ∃ root ∈ source.chain.listed, next.finalized.tipHash = root.hash ∧
      next.finalized.tip.height = state.finalized.tip.height + 1

theorem Effect.moves (coherent : Coherent settings.toChainSettings tree state)
    (allowed : operation.Allowed settings.toChainSettings tree state)
    (effect : Effect settings tree state operation next) : Moves state operation next := by
  cases effect with
  | commitNewChain _ _ commits | commitBlock _ _ commits =>
    refine ⟨fun chain member block isListed => ?_, fun record isRecord => .inl ?_, .inl rfl⟩
    · refine (commits.listed coherent allowed.1 member isListed).imp_right ?_
      rintro rfl
      exact commits.pushes.hash
    · rw [← commits.inserted.records]
      exact isRecord
  | finalize isFinalized isWritten =>
    obtain ⟨best, rest, _, isBest, isListed, _, ⟨_, _, isRebuilt⟩, rfl⟩ :=
      finalize_eq_ok coherent isFinalized
    obtain ⟨isHeight, isHash⟩ := commitFinalizedDirect_tip isWritten
    have isMember : best ∈ state.nonFinalized.chainSet := mem_of_getLast? isBest
    have linked := (coherent.holds best isMember).linked
    rw [isListed] at linked
    refine ⟨fun chain member block listed => .inl ?_, fun record isRecord => .inl ?_, .inr ?_⟩
    · obtain ⟨source, isSource, _, _, split⟩ := isRebuilt.known chain member
      exact ⟨source, isSource, split ▸ mem_cons_of_mem _ listed⟩
    · rw [← isRebuilt.records]
      exact mem_of_mem_filter isRecord
    · refine ⟨best, isMember, _, isListed ▸ mem_cons_self, isHash, ?_⟩
      rw [← linked.1.isHeight, isRebuilt.coherent.tipHeight] at isHeight
      exact isHeight
  | invalidateBlock cuts =>
    refine ⟨fun chain member block isListed => .inl (cuts.listed member isListed),
      fun record isRecord => ?_, .inl rfl⟩
    rcases mem_insertRecord (mem_of_mem_drop isRecord) with rfl | ⟨old, _⟩
    · obtain ⟨source, isSource, split⟩ := cuts.source
      exact .inr fun block isBlock =>
        ⟨source, isSource, split ▸ mem_append_right _ isBlock⟩
    · rw [(cuts.below coherent).2.1] at old
      exact .inl old
  | @reconsiderBlock hash recordHeight root rest parent chain middle restores =>
    refine ⟨fun chain member block isListed => ?_, fun record isRecord => .inl ?_, .inl rfl⟩
    · refine (restores.listed coherent member isListed).imp_right fun isRestored => ?_
      exact ⟨_, restores.recorded, _, _, rfl, restores.isHash, isRestored⟩
    · have isKept : record ∈ middle.invalidatedBlocks := isRecord
      rw [restores.inserted.records] at isKept
      exact mem_of_mem_filter isKept
  | preciousBlock prefers =>
    refine ⟨fun chain member block isListed => .inl (prefers.listed member isListed),
      fun record isRecord => .inl ?_, .inl rfl⟩
    rw [prefers.moved] at isRecord
    exact isRecord
  | alreadyKnown =>
    exact ⟨fun chain member block isListed => .inl ⟨chain, member, isListed⟩,
      fun record isRecord => .inl isRecord, .inl rfl⟩

/-- The blocks of a record are in no chain and no other record, and while the record is not
finalized past, it is kept. -/
structure Refused (tree : BlockTree) (record : Nat × List ContextuallyVerifiedBlock)
    (state : ChainState History) : Prop where
  holds : RecordHolds tree record
  absent : ∀ chain ∈ state.nonFinalized.chainSet, ∀ block ∈ chain.chain.listed,
    ∀ removed ∈ record.2, block.hash ≠ removed.hash
  notTip : ∀ removed ∈ record.2, removed.hash ≠ state.finalized.tipHash
  unshared : ∀ other ∈ state.nonFinalized.invalidatedBlocks, other ≠ record →
    ∀ block ∈ other.2, ∀ removed ∈ record.2, block.hash ≠ removed.hash
  recorded : record ∈ state.nonFinalized.invalidatedBlocks ∨
    record.1 ≤ state.finalized.tip.height

variable {removed contextual : ContextuallyVerifiedBlock}

omit [CommitmentHasher] in
theorem Refused.parent (refused : Refused tree record state) (isRemoved : removed ∈ record.2) :
    removed.height = record.1 ∨ ∃ prior ∈ record.2,
      removed.block.header.previousBlockHash = prior.hash := by
  obtain ⟨_, _, isRecord, isHeight, linked⟩ := refused.holds
  obtain ⟨early, _, split⟩ := append_of_mem isRemoved
  rcases eq_nil_or_concat early with rfl | ⟨_, prior, rfl⟩
  · rw [isRecord, nil_append, cons.injEq] at split
    exact .inl (split.1 ▸ isHeight)
  rw [concat_eq_append] at split
  rw [split, linked_append, lastHash_concat] at linked
  refine .inr ⟨prior, ?_, linked.2.2.1⟩
  rw [split]
  simp

section

variable (coherent : Coherent settings.toChainSettings tree state)
include coherent

theorem Refused.not_commits {prepared : SemanticallyVerifiedBlock}
    {keep : PreferredChain History → Bool} {parent modified : Chain History}
    {after : NonFinalizedState History} (refused : Refused tree record state)
    (isRemoved : removed ∈ record.2)
    (knows : tree.Knows prepared.hash prepared.block prepared.height)
    (commits : NonFinalizedState.Commits settings tree state.finalized.tip.height
      state.finalized.tipHash state.nonFinalized prepared keep parent contextual modified after) :
    prepared.hash ≠ removed.hash := by
  intro same
  obtain ⟨_, _, _, _, linked⟩ := refused.holds
  have removedKnown := linked.knows isRemoved
  have sameHeight : prepared.height = removed.height := by
    rw [← knows.isHeight, same, removedKnown.isHeight]
  have sameBlock : prepared.block = removed.block := by
    rw [← knows.isBlock, same, removedKnown.isBlock]
  obtain ⟨addable, isListed, _⟩ := commits.addable coherent knows
  have above := (addable.holds.represents.bounds
    (isListed ▸ mem_append_right parent.listed mem_cons_self)).1
  rw [commits.pushes.height, sameHeight] at above
  obtain ⟨_, checked, _⟩ := commits.pushes.checked
  have valid := (checkBeforeContextualUpdate_eq_ok coherent.holds checked).1
  rcases refused.recorded with recorded | _
  · refine Bool.eq_false_iff.mp valid (isInvalidated_eq_true.mpr ?_)
    exact ⟨record, recorded, removed, isRemoved, same.symm⟩
  rcases refused.parent isRemoved with _ | ⟨prior, isPrior, isParent⟩
  · omega
  have ends := commits.parentOf.endsIn
  rw [sameBlock, isParent] at ends
  rcases ends.cases with isTip | ⟨block, isBlock, sameHash⟩
  · exact refused.notTip prior isPrior isTip
  · obtain ⟨source, isSource, listed⟩ := commits.parentOf.known block isBlock
    exact refused.absent source isSource block listed prior isPrior sameHash

section

variable (effect : Effect settings tree state operation next)
  (stays : ¬operation.Lifts state.nonFinalized record)
include effect stays

theorem Effect.keeps_record (recorded : record ∈ state.nonFinalized.invalidatedBlocks) :
    record ∈ next.nonFinalized.invalidatedBlocks ∨ record.1 ≤ next.finalized.tip.height := by
  cases effect with
  | commitNewChain _ _ commits | commitBlock _ _ commits =>
    exact .inl (commits.inserted.records.symm ▸ recorded)
  | @finalize root treestate finalized after isFinalized isWritten =>
    obtain ⟨_, rest, _, _, _, _, ⟨_, _, isRebuilt⟩, rfl⟩ :=
      finalize_eq_ok coherent isFinalized
    obtain ⟨isHeight, _⟩ := commitFinalizedDirect_tip isWritten
    rw [← isRebuilt.records] at recorded
    by_cases kept : root.height ≤ record.1
    · exact .inl (mem_filter.mpr ⟨recorded, decide_eq_true kept⟩)
    · rw [isHeight]
      exact .inr (Nat.le_of_not_le kept)
  | @invalidateBlock hash first rest block middle cuts =>
    obtain ⟨source, isSource, split⟩ := cuts.source
    have listed : block ∈ source.chain.listed := by
      rw [split]
      simp
    rw [← (cuts.below coherent).2.1] at recorded
    refine .inl (mem_drop_insertRecord ?_ recorded ?_ ?_)
    · exact (cuts.below coherent).1.recordsBounded
    · exact fun same => stays ⟨source, isSource, block, listed, cuts.isHash, .inl same⟩
    · rw [(cuts.below coherent).2.1]
      exact fun evicted => stays ⟨source, isSource, block, listed, cuts.isHash, .inr evicted⟩
  | @reconsiderBlock hash recordHeight root rest parent chain middle restores =>
    by_cases passed : state.finalized.tip.height ≤ record.1
    · refine .inl (restores.inserted.records.symm ▸ mem_filter.mpr ⟨recorded, ?_⟩)
      refine decide_eq_true ⟨fun same => ?_, passed⟩
      have isRecord := coherent.eq_of_height recorded restores.recorded same
      exact stays ⟨root, rest, congrArg Prod.snd isRecord, restores.isHash⟩
    · exact .inr (Nat.le_of_not_le passed)
  | preciousBlock prefers =>
    rw [prefers.moved]
    exact .inl recorded
  | alreadyKnown => exact .inl recorded

theorem Refused.step (refused : Refused tree record state)
    (allowed : operation.Allowed settings.toChainSettings tree state) :
    Refused tree record next := by
  have moves := effect.moves coherent allowed
  refine ⟨refused.holds, ?_, ?_, ?_, ?_⟩
  · intro chain member block isListed removed isRemoved same
    rcases moves.chains chain member block isListed with ⟨source, isSource, listed⟩ | brings
    · exact refused.absent source isSource block listed removed isRemoved same
    cases effect with
    | commitNewChain _ _ commits | commitBlock _ _ commits =>
      exact refused.not_commits coherent isRemoved allowed.1 commits (brings.symm.trans same)
    | reconsiderBlock restores =>
      obtain ⟨other, isOther, root, rest, split, isHash, isBlock⟩ := brings
      refine refused.unshared other isOther ?_ block isBlock removed isRemoved same
      rintro rfl
      exact stays ⟨root, rest, split, isHash⟩
    | finalize | invalidateBlock | preciousBlock | alreadyKnown => exact brings
  · intro removed isRemoved same
    rcases moves.tip with sameTip | ⟨source, isSource, root, isRoot, isTip, _⟩
    · exact refused.notTip removed isRemoved (same.trans (congrArg (·.tipHash) sameTip))
    · exact refused.absent source isSource root isRoot removed isRemoved (same.trans isTip).symm
  · intro other isOther differs block isBlock removed isRemoved
    rcases moves.records other isOther with old | fromChain
    · exact refused.unshared other old differs block isBlock removed isRemoved
    · obtain ⟨source, isSource, listed⟩ := fromChain block isBlock
      exact refused.absent source isSource block listed removed isRemoved
  · have higher : state.finalized.tip.height ≤ next.finalized.tip.height := by
      rcases moves.tip with sameTip | ⟨_, _, _, _, _, isHeight⟩
      · rw [sameTip]
      · rw [isHeight]
        exact Nat.le_succ _
    rcases refused.recorded with recorded | passed
    · exact effect.keeps_record coherent stays recorded
    · exact .inr (passed.trans higher)

end

theorem refused_of_invalidateBlock {hash : Hash}
    (effect : Effect settings tree state (.invalidateBlock hash) next) :
    ∃ record ∈ next.nonFinalized.invalidatedBlocks, Refused tree record next ∧
      ∃ source ∈ state.nonFinalized.chainSet, ∃ first root rest,
        source.chain.listed = first ++ record.2 ∧ record.2 = root :: rest ∧ root.hash = hash := by
  have nextCoherent := (effect.keeps coherent (by trivial)).coherent
  cases effect with
  | @invalidateBlock _ first rest block middle cuts =>
    obtain ⟨source, isSource, split⟩ := cuts.source
    have recorded : (block.height, block :: rest) ∈
        (middle.recordInvalidated block.height (block :: rest)).invalidatedBlocks :=
      inserted_mem_drop_insertRecord (cuts.below coherent).1.recordsBounded
    refine ⟨_, recorded, ⟨nextCoherent.records _ recorded, ?_, ?_, ?_, .inl recorded⟩, source,
      isSource, first, block, rest, split, rfl, cuts.isHash⟩
    · intro chain member listed isListed removed isRemoved
      exact cuts.gone coherent member isListed isRemoved
    · intro removed isRemoved same
      have holds := coherent.holds source isSource
      have listed : removed ∈ source.chain.listed := split ▸ mem_append_right _ isRemoved
      have above := (holds.represents.bounds listed).1
      have known := (holds.linked.knows listed).isHeight
      have tipHeight := coherent.tipHeight
      rw [same] at known
      exact above.ne (tipHeight.symm.trans known)
    · intro other isOther differs listed isListed removed isRemoved same
      exact differs (nextCoherent.eq_of_recorded isOther recorded isListed isRemoved same)

end

inductive RunKeeping (settings : ContextSettings History) (tree : BlockTree)
    (record : Nat × List ContextuallyVerifiedBlock) (initial : ChainState History) :
    ChainState History → Prop
  | initial : RunKeeping settings tree record initial initial
  | step {state : ChainState History} (operation : Operation History)
      (earlier : RunKeeping settings tree record initial state)
      (allowed : operation.Allowed settings.toChainSettings tree state)
      (keeps : (state.apply settings operation).1 = .ok () →
        ¬operation.Lifts state.nonFinalized record) :
      RunKeeping settings tree record initial (state.apply settings operation).2

theorem RunKeeping.refused {initial : ChainState History}
    (coherent : Coherent settings.toChainSettings tree initial)
    (refused : Refused tree record initial) (run : RunKeeping settings tree record initial state) :
    Coherent settings.toChainSettings tree state ∧ Refused tree record state := by
  induction run with
  | initial => exact ⟨coherent, refused⟩
  | step operation earlier allowed keeps ih =>
    obtain ⟨stateCoherent, stateRefused⟩ := ih
    rcases apply_cases stateCoherent allowed with ⟨_, failed⟩ | ⟨_, done, effect⟩
    · rw [failed]
      exact ⟨stateCoherent, stateRefused⟩
    · rw [done] at keeps ⊢
      exact ⟨(effect.keeps stateCoherent allowed).coherent,
        stateRefused.step stateCoherent effect (keeps rfl) allowed⟩

theorem Refused.fails (coherent : Coherent settings.toChainSettings tree state)
    (refused : Refused tree record state) (isRemoved : removed ∈ record.2)
    (allowed : operation.Allowed settings.toChainSettings tree state)
    (commits : operation.CommitsHash removed.hash) : (state.apply settings operation).1 ≠ .ok () := by
  rcases apply_cases coherent allowed with ⟨_, failed⟩ | ⟨_, _, effect⟩
  · rw [failed]
    intro succeeded
    cases succeeded
  cases effect with
  | commitNewChain _ _ pushed | commitBlock _ _ pushed =>
    exact absurd commits (refused.not_commits coherent isRemoved allowed.1 pushed)
  | finalize | invalidateBlock | reconsiderBlock | preciousBlock | alreadyKnown =>
    exact commits.elim

/-- A block that was invalidated, and the blocks recorded with it, are refused until their record is
reconsidered, replaced or evicted. After finalizing there is no record below the finalized
height. -/
theorem invalidated_refused (settings : ContextSettings History) (tree : BlockTree)
    (initial : FinalizedState History) (state : ChainState History)
    (tipHeight : tree.heightOf initial.tipHash = initial.tip.height)
    (run : Run settings tree ⟨initial, .empty⟩ state) :
    (∀ hash after, state.apply settings (.invalidateBlock hash) = (.ok (), after) →
      ∃ record ∈ after.nonFinalized.invalidatedBlocks,
        (∃ source ∈ state.nonFinalized.chainSet, ∃ first root rest,
          source.chain.listed = first ++ record.2 ∧ record.2 = root :: rest ∧ root.hash = hash) ∧
        ∀ later, RunKeeping settings tree record after later → ∀ removed ∈ record.2,
          ∀ operation : Operation History,
            operation.Allowed settings.toChainSettings tree later →
            operation.CommitsHash removed.hash → (later.apply settings operation).1 ≠ .ok ()) ∧
    ∀ after, state.apply settings .finalize = (.ok (), after) →
      ∀ record ∈ after.nonFinalized.invalidatedBlocks, after.finalized.tip.height ≤ record.1 := by
  have coherent := run.coherent tipHeight
  constructor
  · intro hash after invalidated
    have allowed : (Operation.invalidateBlock hash).Allowed settings.toChainSettings tree state :=
      trivial
    rcases apply_cases coherent allowed with
      ⟨error, failed⟩ | ⟨next, done, effect⟩
    · cases failed.symm.trans invalidated
    obtain rfl := (Prod.mk.inj (done.symm.trans invalidated)).2
    obtain ⟨record, recorded, refused, removed⟩ := refused_of_invalidateBlock coherent effect
    refine ⟨record, recorded, removed, ?_⟩
    intro later laterRun block isBlock operation allowed commits
    obtain ⟨laterCoherent, laterRefused⟩ :=
      laterRun.refused (effect.keeps coherent (by trivial)).coherent refused
    exact laterRefused.fails laterCoherent isBlock allowed commits
  · intro after finalized record isRecord
    have allowed : Operation.finalize.Allowed settings.toChainSettings tree state := trivial
    rcases apply_cases coherent allowed with
      ⟨error, failed⟩ | ⟨next, done, effect⟩
    · cases failed.symm.trans finalized
    obtain rfl := (Prod.mk.inj (done.symm.trans finalized)).2
    cases effect with
    | finalize isFinalized isWritten =>
      obtain ⟨_, _, _, _, _, _, _, rfl⟩ :=
        finalize_eq_ok coherent isFinalized
      rw [(commitFinalizedDirect_tip isWritten).1]
      exact of_decide_eq_true (mem_filter.mp isRecord).2

end ChainState

namespace Sample

local instance invalidationHasher : CommitmentHasher := hasher

def oneInvalidated : ChainState Unit :=
  (siblings.apply contextSettings (.invalidateBlock proposed.hash)).2

def bothInvalidated : ChainState Unit :=
  (oneInvalidated.apply contextSettings (.invalidateBlock mined.hash)).2

/-- After its sibling was invalidated too, an invalidated block is committed again. -/
theorem sibling_replaces_record :
    ChainState.Run contextSettings siblingTree ⟨genesis, .empty⟩ siblings ∧
    (siblings.apply contextSettings (.invalidateBlock proposed.hash)).1 = .ok () ∧
    (oneInvalidated.apply contextSettings commitProposed).1 ≠ .ok () ∧
    (oneInvalidated.apply contextSettings (.invalidateBlock mined.hash)).1 = .ok () ∧
    bothInvalidated.finalized.tip.height < proposed.height ∧
    bothInvalidated.nonFinalized.invalidatedBlocks.length < maxInvalidatedBlocks ∧
    commitProposed.Allowed settings siblingTree bothInvalidated ∧
    (bothInvalidated.apply contextSettings commitProposed).1 = .ok () :=
  ⟨siblings_run, by decide +kernel, by decide +kernel, by decide +kernel, by decide +kernel,
    by decide +kernel, ⟨⟨rfl, rfl, rfl⟩, rfl⟩, by decide +kernel⟩

/-- The first payment is refused after it was invalidated. -/
theorem invalidated_refused_of_payment :
    (siblings.apply contextSettings (.invalidateBlock proposed.hash)).1 = .ok () ∧
    (oneInvalidated.apply contextSettings commitProposed).1 ≠ .ok () := by
  have succeeded : (siblings.apply contextSettings (.invalidateBlock proposed.hash)).1 = .ok () := by
    decide +kernel
  obtain ⟨_, _, ⟨_, _, _, root, _, _, isRecord, isHash⟩, refused⟩ :=
    (ChainState.invalidated_refused contextSettings siblingTree genesis siblings rfl
      siblings_run).1 proposed.hash oneInvalidated (Prod.ext succeeded rfl)
  refine ⟨succeeded, ?_⟩
  refine refused oneInvalidated .initial root (isRecord ▸ mem_cons_self) commitProposed
    ⟨⟨rfl, rfl, rfl⟩, rfl⟩ isHash.symm

end Sample

end Zakura.NonFinalized
