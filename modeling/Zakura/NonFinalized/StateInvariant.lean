import Zakura.NonFinalized.StateSteps

/-!
The invariant of the non-finalized state, and that every operation keeps it.
-/

namespace Zakura.NonFinalized

open HeaderChain (Hash)
open FiniteMap Fallible List

variable {History : Type} {records : List (Nat × List ContextuallyVerifiedBlock)}
  {blocks rest : List ContextuallyVerifiedBlock} {found best : PreferredChain History}
  {height sequence : Nat}

def SameReceipts (first second : List ContextuallyVerifiedBlock) : Prop :=
  ∀ block ∈ first, ∀ copy ∈ second, block.hash = copy.hash → block.receiptOrder = copy.receiptOrder

theorem SameReceipts.symm {first second : List ContextuallyVerifiedBlock}
    (same : SameReceipts first second) : SameReceipts second first :=
  fun block member copy copied equal => (same copy copied block member equal.symm).symm

def RecordHolds (tree : BlockTree) (record : Nat × List ContextuallyVerifiedBlock) : Prop :=
  ∃ root rest, record.2 = root :: rest ∧ root.height = record.1 ∧
    Linked tree root.block.header.previousBlockHash record.2

def RecordsApart (first second : Nat × List ContextuallyVerifiedBlock) : Prop :=
  first.1 ≠ second.1 ∧ ∀ block ∈ first.2, ∀ other ∈ second.2, block.hash ≠ other.hash

instance : Std.Symm RecordsApart where
  symm _ _ apart := ⟨apart.1.symm, fun block isBlock other isOther =>
    (apart.2 other isOther block isBlock).symm⟩

theorem mem_insertRecord {record : Nat × List ContextuallyVerifiedBlock}
    (member : record ∈ insertRecord height blocks records) :
    record = (height, blocks) ∨ record ∈ records ∧ record.1 ≠ height := by
  unfold insertRecord at member
  split at member
  · obtain ⟨old, isOld, rfl⟩ := mem_map.mp member
    split
    · exact .inl rfl
    next differs =>
      exact .inr ⟨isOld, differs⟩
  rename_i absent
  rcases mem_append.mp member with old | new
  · refine .inr ⟨old, fun same => absent (any_eq_true.mpr ⟨record, old, ?_⟩)⟩
    exact decide_eq_true same
  · exact .inl (mem_singleton.mp new)

theorem insertRecord_apart (apart : records.Pairwise RecordsApart)
    (fresh : ∀ record ∈ records, ∀ block ∈ blocks, ∀ other ∈ record.2, block.hash ≠ other.hash) :
    (insertRecord height blocks records).Pairwise RecordsApart := by
  unfold insertRecord
  split
  · rw [pairwise_map]
    refine apart.imp_of_mem ?_
    intro first second isFirst isSecond bothApart
    by_cases firstReplaced : first.1 = height
    · have secondKept : second.1 ≠ height := fun same =>
        bothApart.1 (firstReplaced.trans same.symm)
      rw [if_pos firstReplaced, if_neg secondKept]
      exact ⟨Ne.symm secondKept, fresh second isSecond⟩
    rw [if_neg firstReplaced]
    split
    · exact ⟨firstReplaced, fun other isOther block isBlock =>
        Ne.symm (fresh first isFirst block isBlock other isOther)⟩
    · exact bothApart
  next absent =>
    refine pairwise_append.mpr ⟨apart, pairwise_singleton _ _, ?_⟩
    intro record isRecord added isAdded
    obtain rfl := mem_singleton.mp isAdded
    refine ⟨fun same => absent (any_eq_true.mpr ⟨record, isRecord, decide_eq_true same⟩), ?_⟩
    exact fun other isOther block isBlock =>
      Ne.symm (fresh record isRecord block isBlock other isOther)

namespace NonFinalizedState

structure Coherent (settings : ChainSettings History) (tree : BlockTree) (height : Nat)
    (tip : Hash) (state : NonFinalizedState History) : Prop where
  tipHeight : tree.heightOf tip = height
  holds : ∀ chain ∈ state.chainSet, chain.chain.Holds settings tree height tip
  ranked : RankedSet.Ranked PreferredChain.order state.chainSet
  bounded : state.chainSet.length ≤ maxNonFinalizedChainForks
  preferred : ∀ chain ∈ state.chainSet, chain = state.withTipPreference chain.chain
  copies : ∀ first ∈ state.chainSet, ∀ second ∈ state.chainSet,
    SameReceipts first.chain.listed second.chain.listed
  apart : ∀ chain ∈ state.chainSet, ∀ block ∈ chain.chain.listed,
    state.isInvalidated block.hash = false
  records : ∀ record ∈ state.invalidatedBlocks, RecordHolds tree record
  recordsApart : state.invalidatedBlocks.Pairwise RecordsApart
  recordsBounded : state.invalidatedBlocks.length ≤ maxInvalidatedBlocks

/-- A chain that may be added: its blocks are known, agree with the copies in the set and are not
invalidated. -/
structure Addable (settings : ChainSettings History) (tree : BlockTree) (height : Nat)
    (tip : Hash) (state : NonFinalizedState History) (chain : Chain History) : Prop where
  holds : chain.Holds settings tree height tip
  receipts : ∀ old ∈ state.chainSet, SameReceipts chain.listed old.chain.listed
  valid : ∀ block ∈ chain.listed, state.isInvalidated block.hash = false

variable {settings : ChainSettings History} {tree : BlockTree} {tip hash : Hash}
  {state next : NonFinalizedState History} {chain second first : Chain History}

theorem coherent_empty (tipHeight : tree.heightOf tip = height) :
    Coherent settings tree height tip .empty := by
  refine ⟨tipHeight, ?_, List.Pairwise.nil, Nat.zero_le _, ?_, ?_, ?_, ?_, List.Pairwise.nil,
    Nat.zero_le _⟩ <;>
    simp [NonFinalizedState.empty]

theorem sameReceipts_self (holds : chain.Holds settings tree height tip) :
    SameReceipts chain.listed chain.listed := by
  intro block member copy copied same
  rw [inj_on_of_nodup_map holds.represents.hashes_nodup member copied same]

theorem activePrecedence_withTipPreference (state : NonFinalizedState History)
    (same : first.tipHash = second.tipHash) : (state.withTipPreference first).activePrecedence =
      (state.withTipPreference second).activePrecedence := by
  unfold PreferredChain.activePrecedence withTipPreference PreferredChain.tipHash
  rw [same]

theorem order_eq_of_tip (firstHolds : first.Holds settings tree height tip)
    (secondHolds : second.Holds settings tree height tip)
    (receipts : SameReceipts first.listed second.listed) (sameTip : first.tipHash = second.tipHash) :
    (state.withTipPreference first).order = (state.withTipPreference second).order := by
  obtain ⟨_, last, isLast⟩ := firstHolds.exists_last
  obtain ⟨isTip, isTipHash⟩ := firstHolds.tip isLast
  have isOtherTipHash := sameTip.symm.trans isTipHash
  obtain ⟨_, otherLast, isOtherLast, same⟩ := secondHolds.tip_listed isOtherTipHash
  have receipt : last.receiptOrder = otherLast.receiptOrder := by
    refine receipts last ?_ otherLast ?_ same.symm
    · rw [isLast]
      simp
    · rw [isOtherLast]
      simp
  unfold PreferredChain.order
  rw [activePrecedence_withTipPreference state sameTip]
  simp [withTipPreference, PreferredChain.tipHash, sameTip, isTip, (secondHolds.tip isOtherLast).1,
    receipt, firstHolds.same_work secondHolds isTipHash isOtherTipHash]

theorem lookup_retainPreciousBlocks (contained : state.anyChainContains hash = true) :
    state.retainPreciousBlocks.preciousBlocks.lookup hash = state.preciousBlocks.lookup hash := by
  simp only [retainPreciousBlocks, lookup_retain, contained, Bool.true_or]
  cases state.preciousBlocks.lookup hash <;> rfl

namespace Coherent

variable (coherent : Coherent settings tree height tip state)

include coherent

theorem eq_of_tip {first second : PreferredChain History} (member : first ∈ state.chainSet)
    (otherMember : second ∈ state.chainSet) (same : first.tipHash = second.tipHash) :
    first = second := by
  refine coherent.ranked.eq_of_rank member otherMember ?_
  rw [coherent.preferred first member, coherent.preferred second otherMember]
  exact order_eq_of_tip (coherent.holds first member) (coherent.holds second otherMember)
    (coherent.copies first member second otherMember) same

theorem contains_tip (member : found ∈ state.chainSet) :
    ∃ hash, found.chain.tipHash = some hash ∧ state.anyChainContains hash = true := by
  have holds := coherent.holds found member
  obtain ⟨_, last, isLast⟩ := holds.exists_last
  refine ⟨last.hash, (holds.tip isLast).2, any_eq_true.mpr ⟨found, member, ?_⟩⟩
  refine (holds.contains _).mpr ⟨last, ?_, rfl⟩
  rw [isLast]
  simp

theorem addable {early late : List ContextuallyVerifiedBlock}
    (holds : chain.Holds settings tree height tip) (same : chain.listed = early ++ late)
    (known : ∀ block ∈ early, ∃ source ∈ state.chainSet, block ∈ source.chain.listed)
    (receipts : ∀ old ∈ state.chainSet, SameReceipts late old.chain.listed)
    (valid : ∀ block ∈ late, state.isInvalidated block.hash = false) :
    Addable settings tree height tip state chain := by
  refine ⟨holds, ?_, ?_⟩
  · intro old member block listed
    rw [same, mem_append] at listed
    rcases listed with inEarly | inLate
    · obtain ⟨source, sourceMember, listed⟩ := known block inEarly
      exact coherent.copies source sourceMember old member block listed
    · exact receipts old member block inLate
  intro block listed
  rw [same, mem_append] at listed
  rcases listed with inEarly | inLate
  · obtain ⟨source, sourceMember, listed⟩ := known block inEarly
    exact coherent.apart source sourceMember block listed
  · exact valid block inLate

theorem inserted {keep : PreferredChain History → Bool}
    (addable : Addable settings tree height tip state chain)
    (inserted : Inserted state chain keep next) : Coherent settings tree height tip next := by
  have records := inserted.records
  have preference (found : Chain History) :
      next.withTipPreference found = state.withTipPreference found := by
    rw [inserted.others]
    rfl
  have invalidated (hash : Hash) : next.isInvalidated hash = state.isInvalidated hash := by
    rw [inserted.others]
    rfl
  refine ⟨coherent.tipHeight, ?_, inserted.ranked coherent.ranked, inserted.bounded, ?_, ?_, ?_, ?_,
    ?_, ?_⟩
  · intro found member
    rcases (inserted.mem member).1 with old | rfl
    · exact coherent.holds found old
    · exact addable.holds
  · intro found member
    rw [preference]
    rcases (inserted.mem member).1 with old | rfl
    · exact coherent.preferred found old
    · rfl
  · intro first member second otherMember
    rcases (inserted.mem member).1 with old | rfl
    · rcases (inserted.mem otherMember).1 with otherOld | rfl
      · exact coherent.copies first old second otherOld
      · exact SameReceipts.symm (addable.receipts first old)
    · rcases (inserted.mem otherMember).1 with otherOld | rfl
      · exact addable.receipts second otherOld
      · exact sameReceipts_self addable.holds
  · intro found member block listed
    rw [invalidated]
    rcases (inserted.mem member).1 with old | rfl
    · exact coherent.apart found old block listed
    · exact addable.valid block listed
  · rw [records]
    exact coherent.records
  · rw [records]
    exact coherent.recordsApart
  · rw [records]
    exact coherent.recordsBounded

theorem preferring {precious : FiniteMap Hash Nat}
    (same : ∀ chain ∈ state.chainSet, ∀ hash, chain.chain.tipHash = some hash → precious.lookup
      hash = state.preciousBlocks.lookup hash) : Coherent settings tree height tip
      { state with preciousSequence := sequence, preciousBlocks := precious } := by
  refine { coherent with preferred := ?_ }
  intro found member
  obtain ⟨hash, isTip, _⟩ := coherent.contains_tip member
  have preferred := coherent.preferred found member
  simp only [withTipPreference, isTip, Option.bind_some, same found member hash isTip]
    at preferred ⊢
  exact preferred

theorem retained : Coherent settings tree height tip state.retainPreciousBlocks := by
  refine coherent.preferring ?_
  intro found member hash isTip
  obtain ⟨_, isOther, contained⟩ := coherent.contains_tip member
  obtain rfl := Option.mem_unique isOther isTip
  exact lookup_retainPreciousBlocks contained

theorem dropped {chains : List (PreferredChain History)} (sub : chains.Sublist state.chainSet) :
    Coherent settings tree height tip { state with chainSet := chains } :=
  { coherent with
    holds := fun found member => coherent.holds found (sub.mem member)
    ranked := coherent.ranked.sublist sub
    bounded := sub.length_le.trans coherent.bounded
    preferred := fun found member => coherent.preferred found (sub.mem member)
    copies := fun first member second otherMember =>
      coherent.copies first (sub.mem member) second (sub.mem otherMember)
    apart := fun found member => coherent.apart found (sub.mem member) }

theorem forgotten (sub : records.Sublist state.invalidatedBlocks) :
    Coherent settings tree height tip { state with invalidatedBlocks := records } := by
  refine { coherent with
    apart := ?_
    records := fun record member => coherent.records record (sub.mem member)
    recordsApart := coherent.recordsApart.sublist sub
    recordsBounded := sub.length_le.trans coherent.recordsBounded }
  intro found member block listed
  have valid := coherent.apart found member block listed
  rw [Bool.eq_false_iff, ne_eq, isInvalidated_eq_true] at valid ⊢
  rintro ⟨record, recorded, isIn⟩
  exact valid ⟨record, sub.mem recorded, isIn⟩

section

variable {first second : Nat × List ContextuallyVerifiedBlock}
  (isFirst : first ∈ state.invalidatedBlocks) (isSecond : second ∈ state.invalidatedBlocks)
include isFirst isSecond

theorem eq_of_recorded {block other : ContextuallyVerifiedBlock} (isBlock : block ∈ first.2)
    (isOther : other ∈ second.2) (same : block.hash = other.hash) : first = second := by
  by_contra differ
  exact (coherent.recordsApart.forall isFirst isSecond differ).2 block isBlock other isOther same

theorem eq_of_height (same : first.1 = second.1) : first = second := by
  by_contra differ
  exact (coherent.recordsApart.forall isFirst isSecond differ).1 same

end

theorem recorded {block : ContextuallyVerifiedBlock}
    (linked : Linked tree block.block.header.previousBlockHash (block :: rest))
    (valid : ∀ removed ∈ block :: rest, state.isInvalidated removed.hash = false)
    (gone : ∀ chain ∈ state.chainSet, ∀ listed ∈ chain.chain.listed, ∀ removed ∈ block :: rest,
      listed.hash ≠ removed.hash) :
    Coherent settings tree height tip (state.recordInvalidated block.height (block :: rest)) := by
  have fresh : ∀ record ∈ state.invalidatedBlocks, ∀ removed ∈ block :: rest, ∀ other ∈ record.2,
      removed.hash ≠ other.hash := by
    intro record isRecord removed isRemoved other isOther same
    refine (Bool.eq_false_iff.mp (valid removed isRemoved)) (isInvalidated_eq_true.mpr ?_)
    exact ⟨record, isRecord, other, isOther, same.symm⟩
  have sub := drop_sublist ((insertRecord block.height (block :: rest)
    state.invalidatedBlocks).length - maxInvalidatedBlocks)
      (insertRecord block.height (block :: rest) state.invalidatedBlocks)
  refine { coherent with apart := ?_, records := ?_, recordsApart := ?_, recordsBounded := ?_ }
  · intro chain member listed isListed
    rw [Bool.eq_false_iff, ne_eq, isInvalidated_eq_true]
    rintro ⟨record, isRecord, other, isOther, same⟩
    rcases mem_insertRecord (sub.mem isRecord) with rfl | ⟨old, _⟩
    · exact gone chain member listed isListed other isOther same.symm
    · exact Bool.eq_false_iff.mp (coherent.apart chain member listed isListed)
        (isInvalidated_eq_true.mpr ⟨record, old, other, isOther, same⟩)
  · intro record isRecord
    rcases mem_insertRecord (sub.mem isRecord) with rfl | ⟨old, _⟩
    · exact ⟨block, rest, rfl, rfl, linked⟩
    · exact coherent.records record old
  · exact (insertRecord_apart coherent.recordsApart fresh).sublist sub
  · change (drop _ _).length ≤ _
    rw [length_drop]
    omega

section

variable {keep : PreferredChain History → Bool}
  (addable : Addable settings tree height tip state chain)

include addable

theorem same_order (member : found ∈ state.candidates chain keep)
    (sameTip : found.tipHash = chain.tipHash) : found.chain.Holds settings tree height tip ∧
      found.order = (state.withTipPreference chain).order := by
  rcases (mem_candidates member).1 with old | rfl
  · have holds := coherent.holds found old
    rw [coherent.preferred found old]
    exact ⟨holds, order_eq_of_tip holds addable.holds
      (SameReceipts.symm (addable.receipts found old)) sameTip⟩
  · exact ⟨addable.holds, rfl⟩

omit addable in
theorem candidates_ranked : RankedSet.Ranked PreferredChain.order (state.candidates chain keep) :=
  (coherent.ranked.insert _).sublist filter_sublist

theorem single : (state.candidates chain keep).countP
    (fun other => other.tipHash = chain.tipHash) ≤ 1 := by
  refine coherent.candidates_ranked.countP_le_one ?_
  intro first member second otherMember sameTip otherTip
  rw [(coherent.same_order addable member (of_decide_eq_true sameTip)).2,
    (coherent.same_order addable otherMember (of_decide_eq_true otherTip)).2]

theorem keeps_added (inserted : Inserted state chain keep next)
    (kept : ∀ found, found.chain.Holds settings tree height tip → found.tipHash = chain.tipHash →
      keep found = true) : ∃ found ∈ next.chainSet, found.tipHash = chain.tipHash := by
  obtain ⟨found, member, same⟩ := RankedSet.exists_rank_insert PreferredChain.order
    (state.withTipPreference chain) state.chainSet
  have sameTip : found.tipHash = chain.tipHash := congrArg (fun order : ChainOrder =>
    (ofLex (ofLex (ofLex order).2).2).2) same
  have holds : found.chain.Holds settings tree height tip := by
    rcases RankedSet.mem_insert.mp member with old | ⟨rfl, _⟩
    · exact coherent.holds found old
    · exact addable.holds
  exact ⟨found, inserted.kept found (mem_filter.mpr ⟨member, kept found holds sameTip⟩) sameTip,
    sameTip⟩

theorem keeps_best (inserted : Inserted state chain keep next) (member : best ∈ state.chainSet)
    (kept : keep best = true)
    (isBest : ∀ other ∈ state.chainSet, keep other = true → other.order ≤ best.order) :
    best ∈ next.chainSet := by
  by_contra gone
  have candidate : best ∈ state.candidates chain keep :=
    mem_filter.mpr ⟨RankedSet.mem_insert.mpr (.inl member), kept⟩
  obtain ⟨full, below⟩ := inserted.lowest coherent.candidates_ranked best candidate gone
  have single := (inserted.sublist.countP_le (p := fun other => other.tipHash = chain.tipHash)).trans
    (coherent.single addable)
  obtain ⟨_, _, isLast⟩ := addable.holds.exists_last
  rw [(addable.holds.tip isLast).2] at single below
  obtain ⟨other, stays, differs⟩ := exists_other single full.ge
  obtain ⟨old | rfl, otherKept⟩ := inserted.mem stays
  · exact absurd (isBest other old otherKept) (below other stays differs).not_ge
  · exact differs (addable.holds.tip isLast).2

end

end Coherent

end NonFinalizedState

end Zakura.NonFinalized
